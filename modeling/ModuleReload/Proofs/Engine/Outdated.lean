import Mathlib.Data.Set.Card
import ModuleReload.Proofs.Engine.Coverage
import ModuleReload.Proofs.Engine.Footprint

/-!
# Questions for change

A question for change is answered with yes exactly if something that is reached has changed, and a
yes uses up one change: the source that it was found in has a new baseline from then on. What is
left to be found is the set of the sources that are reached and newer than their baselines
(`Engine.news`), each by its path. A yes takes one path out of it, and a no means that it is empty
(`Run.news_again`). So a question that is put again and again, with no file changed in
between, is answered with yes as many times as there were such paths, and with no ever after
(`Run.isOutdated_iff_lt_news`).

Which source a yes is about depends on the order of the walk, on what has been asked before and on
cycles. That one is taken and that none is lost does not: a tour that finds nothing has looked at
all that is reached, and looking at a source that is not newer changes nothing that can be found
later, also where it sets a first baseline (`Tour.looks_cases`).
-/

namespace ModuleReload

variable {σ τ : Type} {h : Host σ τ}

/-! ## What looking finds -/

namespace Tour

variable {ms xs : List Module} {w w' : Walk σ τ} {ended : Bool} {m : Module}

/-- **What a question finds.** Either it finds nothing: no source that it has looked at was newer,
and all sources are as new as before. Or it ends with a module whose source was newer. That source
is newer no more, and all others are as new as before. -/
theorem looks_cases (ht : Tour h (fun m r ↦ r.Looks h m) ms w xs ended w') :
    (ended = false ∧ (∀ x ∈ xs, w.engine.isNewer h.files x = false) ∧
      ∀ y, w'.engine.isNewer h.files y = w.engine.isNewer h.files y) ∨
    (ended = true ∧ ∃ x ∈ xs, w.engine.isNewer h.files x = true ∧
      ∀ y, w'.engine.isNewer h.files y = true ↔
        w.engine.isNewer h.files y = true ∧ ¬x.SameSource h.files y) := by
  have hentering (v : Walk σ τ) (ns : List Notice) (m y : Module) :
      (v.entering h ns m).engine.isNewer h.files y = v.engine.isNewer h.files y :=
    (Walk.asks_entering h ns m v).isNewer h.files y
  induction ht with
  | done ns => exact .inl ⟨rfl, by simp, fun y ↦ rfl⟩
  | skip _ _ ih => exact ih
  | broken ns _ _ ih =>
    obtain ⟨hended, -⟩ | ⟨-, hfound⟩ := ih
    · exact absurd hended (by decide)
    · simp only [hentering] at hfound
      exact .inr ⟨rfl, hfound⟩
  | @stop m _ xs _ w₁ _ ns _ _ hlook ih =>
    obtain ⟨-, -, hsame⟩ | ⟨hended, -⟩ := ih
    · obtain ⟨hnewer, rfl⟩ := hlook.eq
      simp only [hentering] at hsame
      refine .inr ⟨rfl, m, by simp, by rw [← hsame, ← hnewer], fun y ↦ ?_⟩
      rw [← hsame]
      exact Engine.isNewer_look
    · exact absurd hended (by decide)
  | @turn m _ xs ys _ w₁ _ _ ended ns _ _ hlook _ ih₁ ih₂ =>
    obtain ⟨-, hxs, hsame⟩ | ⟨hended, -⟩ := ih₁
    · obtain ⟨hold, rfl⟩ := hlook.eq
      simp only [hentering] at hxs hsame
      -- The source of the module is not newer, so the look at it does not show.
      have hlooked (y : Module) :
          (w₁.engine.look h.files m).isNewer h.files y = w₁.engine.isNewer h.files y := by
        rw [Bool.eq_iff_iff, Engine.isNewer_look, and_iff_left_iff_imp]
        intro hy hsource
        rw [Engine.isNewer_eq_of_sameSource hsource, hy] at hold
        exact absurd hold (by decide)
      simp only [Walk.put, hlooked, hsame] at ih₂
      obtain ⟨hended, hys, hend⟩ | ⟨hended, x, hx, hnewer, hend⟩ := ih₂
      · refine .inl ⟨hended, ?_, hend⟩
        rw [List.forall_mem_append, List.forall_mem_cons]
        exact ⟨hxs, by rw [← hsame, ← hold], hys⟩
      · exact .inr ⟨hended, x, by simp [hx], hnewer, hend⟩
    · exact absurd hended (by decide)

/-- With one handle of each name, a question leaves all modules with the dependencies that they
had. -/
theorem childrenOf_eq (hone : w.engine.OneHandle h m)
    (ht : Tour h (fun m r ↦ r.Looks h m) ms w xs ended w') (hms : ∀ a ∈ ms, w.engine.Holds h m a)
    {y : Module} (hy : w.engine.Holds h m y) :
    w'.engine.childrenOf h w'.state y = w.engine.childrenOf h w.state y := by
  refine (ht.invariant (P := w.engine.Holds h m)
    (I := fun v ↦ ∀ y, w.engine.Holds h m y →
      v.engine.childrenOf h v.state y = w.engine.childrenOf h w.state y)
    (fun _ _ ↦ rfl) hms (fun _ _ hI ↦ hI) (fun v ns a hI ha _ ↦ ⟨fun y hy ↦ ?_, fun c hc ↦ ?_⟩)
    fun v a b r hI _ _ hlook y hy ↦ hlook.childrenOf_eq.trans (hI y hy)).1 y hy
  · by_cases hname : y.name = a.name
    · obtain rfl := hone y a hy ha hname
      rw [← hI y hy, Engine.childrenOf, Walk.entering_dependencies_get?, if_pos rfl,
        Option.getD_some]
    · rw [← hI y hy, Engine.childrenOf, Walk.entering_dependencies_get?, if_neg hname,
        Walk.entering_roots, Walk.entering_state, Engine.childrenOf]
  · rw [hI a ha] at hc
    exact .of_mem_childrenOf hc

end Tour

/-! ## What is left to be found -/

/-- The sources that are reached from a module and newer than their baselines, by the components of
their paths. -/
def Engine.news (h : Host σ τ) (state : σ) (m : Module) (e : Engine) : Set (List Component) :=
  {c | ∃ x p, e.Reaches h state m x ∧ Dependencies.sourceOf? h.files x = some p ∧ p.components = c ∧
    e.isNewer h.files x = true}

/-- The run that begins where a question for change has left the engine and the host. -/
def Run.again (h : Host σ τ) (m : Module) (r : Run σ τ) : Run σ τ :=
  .start (r.isOutdated h m true).2.engine (r.isOutdated h m true).2.state

variable {state : σ} {e : Engine} {m : Module}

namespace Engine

/-- Only modules that are at hand are reached, so there is an end to what can be found. -/
theorem finite_news : (e.news h state m).Finite := by
  let held : List Module := m :: (h.modules ++ e.dependencies.entries.flatMap (·.2))
  let paths := held.filterMap fun x ↦ (Dependencies.sourceOf? h.files x).map Path.components
  refine Set.Finite.subset (List.finite_toSet paths) ?_
  rintro c ⟨x, p, hx, hp, rfl, -⟩
  have hheld : x ∈ held := hx.holds.mem List.mem_cons_self
    (fun c hc ↦ List.mem_cons_of_mem _ (List.mem_append_left _ hc)) fun entry hentry c hc ↦
      List.mem_cons_of_mem _ (List.mem_append_right _ (List.mem_flatMap.mpr ⟨entry, hentry, hc⟩))
  exact List.mem_filterMap.mpr ⟨x, hheld, by rw [hp]; rfl⟩

theorem news_eq_empty_iff :
    e.news h state m = ∅ ↔ ∀ x, e.Reaches h state m x → e.isNewer h.files x = false := by
  rw [Set.eq_empty_iff_forall_notMem]
  constructor
  · intro hnone x hx
    by_contra hnewer
    rw [Bool.not_eq_false] at hnewer
    obtain ⟨p, -, hp, -⟩ := Module.SameSource.of_isNewer hnewer
    exact hnone p.components ⟨x, p, hx, hp, rfl, hnewer⟩
  · rintro hold c ⟨x, p, hx, -, -, hnewer⟩
    rw [hold x hx] at hnewer
    exact absurd hnewer (by decide)

/-- If one source becomes old, then its path is taken out of what is left to be found. -/
theorem news_eq_diff {e' : Engine} {x : Module} {p : Path}
    (hreaches : ∀ y, e'.Reaches h state m y ↔ e.Reaches h state m y)
    (hp : Dependencies.sourceOf? h.files x = some p)
    (hless : ∀ y, e'.isNewer h.files y = true ↔
      e.isNewer h.files y = true ∧ ¬x.SameSource h.files y) :
    e'.news h state m = e.news h state m \ {p.components} := by
  ext c
  rw [Set.mem_sdiff, Set.mem_singleton_iff]
  constructor
  · rintro ⟨y, q, hy, hq, rfl, hnewer⟩
    rw [hless, Module.sameSource_iff hp hq] at hnewer
    exact ⟨⟨y, q, (hreaches y).mp hy, hq, rfl, hnewer.1⟩, Ne.symm hnewer.2⟩
  · rintro ⟨⟨y, q, hy, hq, rfl, hnewer⟩, hne⟩
    refine ⟨y, q, (hreaches y).mpr hy, hq, rfl, ?_⟩
    rw [hless, Module.sameSource_iff hp hq]
    exact ⟨hnewer, Ne.symm hne⟩

end Engine

namespace Run

/-- **A yes takes one path out of what is left to be found, and a no means that nothing is left.**
The host is as it was, and there is still one handle of each name. -/
theorem news_again (state : σ) (hone : e.OneHandle h m) :
    let question := (start e state : Run σ τ).isOutdated h m true
    let next := (start e state : Run σ τ).again h m
    (next = start next.engine state ∧ next.engine.OneHandle h m) ∧
    ((question.1 = false ∧ e.news h state m = ∅ ∧ next.engine.news h state m = ∅) ∨
      (question.1 = true ∧ ∃ c ∈ e.news h state m,
        next.engine.news h state m = e.news h state m \ {c})) := by
  intro question next
  obtain ⟨xs, ended, w, ht, hcall, -⟩ := (start e state).questionEnds (h := h) m
  have hanswer : question.1 = ended := congrArg Prod.fst hcall
  have hengine : next.engine = w.engine := congrArg (·.2.engine) hcall
  have hkept : next.state = state := (isOutdated_inquires m true (start e state)).state
  have hstate : w.state = state := (congrArg (·.2.state) hcall).symm.trans hkept
  have hheld := (ht.holds_all (isTurn_looks h) Engine.Holds.forall_mem_singleton rfl).1
  refine ⟨⟨by rw [← hkept]; rfl, ?_⟩, ?_⟩
  · rw [hengine]
    exact fun a b ha hb ↦ hone a b (hheld a ha) (hheld b hb)
  rw [hanswer, hengine]
  have hreaches (y : Module) : w.engine.Reaches h state m y ↔ e.Reaches h state m y := by
    refine hone.closed.reachesBy_congr (fun x hx ↦ ?_) .refl
    have hchildren := ht.childrenOf_eq hone Engine.Holds.forall_mem_singleton hx.holds
    rwa [hstate] at hchildren
  have hK :=
    ht.finds (isTurn_looks h) (P := fun _ ↦ True) (fun _ _ _ _ ↦ trivial) (fun _ _ ↦ trivial)
      (fun _ _ _ _ _ hr _ _ _ ↦ hr.childrenOf_eq) rfl
  rcases ht.looks_cases with ⟨rfl, hxs, hsame⟩ | ⟨rfl, x, hx, hnewer, hless⟩
  · have hold (y : Module) (hy : e.Reaches h state m y) : e.isNewer h.files y = false :=
      hxs y (ht.mem_of_reached (isTurn_looks h) hone rfl rfl hK hy)
    refine .inl ⟨rfl, Engine.news_eq_empty_iff.mpr hold, Engine.news_eq_empty_iff.mpr fun y hy ↦ ?_⟩
    exact (hsame y).trans (hold y ((hreaches y).mp hy))
  · obtain ⟨p, -, hp, -⟩ := Module.SameSource.of_isNewer hnewer
    obtain ⟨children, hfound, -⟩ := ht.exists_children (isTurn_looks h) hx
    have hreached : e.Reaches h state m x := ht.reached_of_finding (isTurn_looks h) rfl hK hfound
    exact .inr
      ⟨rfl, p.components, ⟨x, p, hreached, hp, rfl, hnewer⟩, Engine.news_eq_diff hreaches hp hless⟩

/-- The question that is put after `n` others is answered with yes if more than `n` paths were left
to be found. -/
theorem isOutdated_iterate_again (state : σ) (hone : e.OneHandle h m) (n : Nat) :
    (((again h m)^[n] (start e state : Run σ τ)).isOutdated h m true).1 = true ↔
      n < (e.news h state m).ncard := by
  induction n generalizing e with
  | zero =>
    rw [Function.iterate_zero_apply, Set.ncard_pos Engine.finite_news, Set.nonempty_iff_ne_empty]
    rcases (news_again state hone).2 with ⟨hno, hnone, -⟩ | ⟨hyes, c, hc, -⟩
    · simp [hno, hnone]
    · have hsome : e.news h state m ≠ ∅ := Set.Nonempty.ne_empty ⟨c, hc⟩
      simp [hyes, hsome]
  | succ n ih =>
    obtain ⟨⟨hnext, hone'⟩, hcases⟩ := news_again state hone
    rw [Function.iterate_succ_apply, hnext, ih hone']
    rcases hcases with ⟨-, hnone, hnone'⟩ | ⟨-, c, hc, hrest⟩
    · simp [hnone, hnone']
    · rw [hrest, Set.ncard_sdiff_singleton_of_mem hc]
      omega

/-- **Questions for change find each change once.** Let there be one handle of each name. The answer
is yes exactly if the source of something that is reached is newer than its baseline. A question
changes neither the clock nor the times of reloads, and has the host do nothing. If questions are
put one after the other and no file changes, as many of them are answered with yes as there were
such sources, by their paths, and these come first. -/
theorem isOutdated_iff_lt_news (state : σ) (hone : e.OneHandle h m) :
    (((start e state : Run σ τ).isOutdated h m true).1 = true ↔
      ∃ x, e.Reaches h state m x ∧ e.isNewer h.files x = true) ∧
    (start e state : Run σ τ).Inquires ((start e state).isOutdated h m true).2 ∧
    (e.news h state m).Finite ∧
    ∀ n, (((again h m)^[n] (start e state : Run σ τ)).isOutdated h m true).1 = true ↔
      n < (e.news h state m).ncard := by
  refine ⟨?_, isOutdated_inquires m true _, Engine.finite_news, isOutdated_iterate_again state hone⟩
  have hfirst := isOutdated_iterate_again state hone 0
  rw [Function.iterate_zero_apply, Set.ncard_pos Engine.finite_news, Set.nonempty_iff_ne_empty, Ne,
    Engine.news_eq_empty_iff] at hfirst
  rw [hfirst]
  simp

end Run

/-! ## One source that has changed -/

theorem Engine.news_stuck : Engine.stuck.news .stuck () .lone = {Path.lone.components} := by
  have hsource : Dependencies.sourceOf? Host.stuck.files .lone = some .lone := by
    decide +kernel
  ext c
  rw [Set.mem_singleton_iff]
  constructor
  · rintro ⟨x, p, hx, hp, rfl, -⟩
    obtain rfl := eq_lone_of_holds_stuck hx.holds hp
    rw [hsource] at hp
    rw [← Option.some.inj hp]
  · rintro rfl
    exact ⟨.lone, .lone, .refl, hsource, rfl, isNewer_stuck⟩

/-- Its change is found by the first question, and by no other one. -/
theorem Run.isOutdated_stuck :
    Engine.stuck.OneHandle .stuck .lone ∧
      ∀ n, (((again .stuck .lone)^[n] (start Engine.stuck ())).isOutdated .stuck .lone true).1 =
      true ↔ n = 0 := by
  refine ⟨Engine.oneHandle_stuck, fun n ↦ ?_⟩
  obtain ⟨-, -, -, hcount⟩ := isOutdated_iff_lt_news () Engine.oneHandle_stuck
  rw [hcount, Engine.news_stuck, Set.ncard_singleton, Nat.lt_one_iff]

end ModuleReload
