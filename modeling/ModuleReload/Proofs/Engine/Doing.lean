import ModuleReload.Proofs.Engine.Replay

/-!
# What a call has the host do

In a call the host does nothing but reload modules. It saves something of a module, reinitializes it
and gets back what was saved in one go, and nothing else that it does comes in between; if the
reinitialization fails, it gets nothing back. `Host.Performs` says this of an account: read as the
host's doing, it leads from one state of the host to another, and has each reload in one piece. That
it holds of every call, and that each module to which something is done has its turn, is told by the
turns of the call (`Replays.does`).

Asking for dependencies and looking at sources has the host do nothing at all (`Run.Inquires`).
-/

namespace ModuleReload

variable {σ τ : Type} {h : Host σ τ} {tick : Tick}

/-! ## Events and what they are about -/

namespace Event

/-- The module that something is done to, if anything is: its source is looked at, or the host acts
on it. -/
def subject? : Event τ → Option Module
  | .said _ => none
  | .asked _ _ => none
  | .checked m => some m
  | .saved m _ => some m
  | .reinitialized m => some m
  | .failed m => some m
  | .restored m _ => some m

/-- Whether the host is left as it is. -/
def isCalm : Event τ → Bool
  | .said _ => true
  | .asked _ _ => true
  | .checked _ => true
  | _ => false

theorem isCalm_of_isTalk {ev : Event τ} (hev : ev.isTalk = true) : ev.isCalm = true := by
  cases ev with
  | said => rfl
  | asked => rfl
  | _ => exact absurd hev Bool.false_ne_true

theorem subject?_of_isTalk {ev : Event τ} (hev : ev.isTalk = true) : ev.subject? = none := by
  cases ev with
  | said => rfl
  | asked => rfl
  | _ => exact absurd hev Bool.false_ne_true

end Event

/-! ## Accounts of a host -/

/-- An account of what a host does on the way from one state to another. When it reloads a module,
it saves something, reinitializes the module, and gets back what it has saved, with nothing in
between; when this fails, it gets nothing back. -/
inductive Host.Performs (h : Host σ τ) : σ → List (Event τ) → σ → Prop
  | done (s : σ) : Performs h s [] s
  | calm {s s' : σ} {ev : Event τ} {es : List (Event τ)} (hcalm : ev.isCalm = true)
      (rest : Performs h s es s') :
      Performs h s (ev :: es) s'
  | reload {s s₁ s' : σ} {m : Module} {es : List (Event τ)}
      (hok : h.reinitialize (h.save s m).2 m = (none, s₁))
      (rest : Performs h (h.restore s₁ m (h.save s m).1) es s') :
      Performs h s (.saved m (h.save s m).1 :: .reinitialized m :: .restored m (h.save s m).1 :: es)
        s'
  | failure {s s₁ s' : σ} {m : Module} {cause : String} {es : List (Event τ)}
      (hfail : h.reinitialize (h.save s m).2 m = (some cause, s₁)) (rest : Performs h s₁ es s') :
      Performs h s (.saved m (h.save s m).1 :: .failed m :: es) s'

namespace Host.Performs

variable {s s₁ s' : σ} {es fs : List (Event τ)}

theorem append (h₁ : h.Performs s es s₁) (h₂ : h.Performs s₁ fs s') :
    h.Performs s (es ++ fs) s' := by
  induction h₁ with
  | done => exact h₂
  | calm hcalm _ ih => exact .calm hcalm (ih h₂)
  | reload hok _ ih => exact .reload hok (ih h₂)
  | failure hfail _ ih => exact .failure hfail (ih h₂)

theorem of_forall_isCalm (hes : ∀ ev ∈ es, ev.isCalm = true) : h.Performs s es s := by
  induction es with
  | nil => exact .done s
  | cons ev es ih =>
    rw [List.forall_mem_cons] at hes
    exact .calm hes.1 (ih hes.2)

end Host.Performs

/-! ## Runs -/

/-- Two runs, of which the second has done nothing more than ask and look: the clock, the times of
reloads and the host are as they were. -/
structure Run.Inquires (r r' : Run σ τ) : Prop where
  times : r'.engine.times = r.engine.times
  state : r'.state = r.state
  events : ∃ es, r'.events = r.events ++ es ∧ ∀ ev ∈ es, ev.isCalm = true

namespace Run.Inquires

variable {r r₁ r' : Run σ τ}

theorem refl (r : Run σ τ) : r.Inquires r :=
  ⟨rfl, rfl, [], by simp, by simp⟩

theorem trans (h₁ : r.Inquires r₁) (h₂ : r₁.Inquires r') : r.Inquires r' where
  times := h₂.times.trans h₁.times
  state := h₂.state.trans h₁.state
  events := by
    obtain ⟨es, hes, hcalm⟩ := h₁.events
    obtain ⟨fs, hfs, hcalm'⟩ := h₂.events
    refine ⟨es ++ fs, by rw [hfs, hes, List.append_assoc], ?_⟩
    rw [List.forall_mem_append]
    exact ⟨hcalm, hcalm'⟩

theorem of_asks (ha : r.Asks r') : r.Inquires r' where
  times := ha.times
  state := ha.state
  events := by
    obtain ⟨es, hes, htalk⟩ := ha.events
    exact ⟨es, hes, fun ev hev ↦ Event.isCalm_of_isTalk (htalk ev hev)⟩

theorem isStale (h : Host σ τ) (m : Module) (r : Run σ τ) : r.Inquires (r.isStale h m).2 := by
  rw [isStale_eq]
  exact ⟨rfl, rfl, [.checked m], rfl, by simp [Event.isCalm]⟩

theorem reloads (hr : r.Inquires r') : Event.reloads r'.events = Event.reloads r.events := by
  obtain ⟨es, hes, hcalm⟩ := hr.events
  have hnone : Event.reloads es = [] := by
    refine List.filterMap_eq_nil_iff.mpr fun ev hev ↦ ?_
    cases ev with
    | reinitialized => exact absurd (hcalm _ hev) Bool.false_ne_true
    | _ => rfl
  rw [hes, Event.reloads_append, hnone, List.append_nil]

end Run.Inquires

/-- Two runs, of which the second has done something more: what it has done is an account of the
host, and has been done to certain modules. -/
def Run.Does (h : Host σ τ) (P : Module → Prop) (r r' : Run σ τ) : Prop :=
  ∃ es, r'.events = r.events ++ es ∧ h.Performs r.state es r'.state ∧
    ∀ ev ∈ es, ∀ x, ev.subject? = some x → P x

namespace Run.Does

variable {P Q : Module → Prop} {r r₁ r' : Run σ τ}

theorem trans (h₁ : r.Does h P r₁) (h₂ : r₁.Does h Q r') : r.Does h (fun x ↦ P x ∨ Q x) r' := by
  obtain ⟨es, hes, hperforms, hsubject⟩ := h₁
  obtain ⟨fs, hfs, hperforms', hsubject'⟩ := h₂
  refine ⟨es ++ fs, by rw [hfs, hes, List.append_assoc], hperforms.append hperforms', ?_⟩
  rw [List.forall_mem_append]
  exact ⟨fun ev hev x hx ↦ .inl (hsubject ev hev x hx),
    fun ev hev x hx ↦ .inr (hsubject' ev hev x hx)⟩

theorem mono (hd : r.Does h P r') (hPQ : ∀ x, P x → Q x) : r.Does h Q r' := by
  obtain ⟨es, hes, hperforms, hsubject⟩ := hd
  exact ⟨es, hes, hperforms, fun ev hev x hx ↦ hPQ x (hsubject ev hev x hx)⟩

theorem of_asks (ha : r.Asks r') : r.Does h (fun _ ↦ False) r' := by
  obtain ⟨es, hes, htalk⟩ := ha.events
  refine ⟨es, hes, ?_, fun ev hev x hx ↦ ?_⟩
  · rw [ha.state]
    exact .of_forall_isCalm fun ev hev ↦ Event.isCalm_of_isTalk (htalk ev hev)
  · rw [Event.subject?_of_isTalk (htalk ev hev)] at hx
    simp at hx

theorem isStale (m : Module) (r : Run σ τ) : r.Does h (· = m) (r.isStale h m).2 := by
  rw [isStale_eq]
  refine ⟨[.checked m], rfl, .calm rfl (.done _), ?_⟩
  simp [Event.subject?]

theorem reloadAt (tick : Tick) (m : Module) (r : Run σ τ) :
    r.Does h (· = m) (r.reloadAt h tick m).2 := by
  let notice : Notice := ⟨"reload", .always, "reloading " ++ m.name⟩
  let snapshot := (h.save r.state m).1
  rw [Run.reloadAt]
  simp only [say, log]
  split
  case h_1 cause s hfail =>
    refine ⟨[.said notice, .saved m snapshot, .failed m], by simp [notice, snapshot], ?_, ?_⟩
    · exact .calm rfl (.failure hfail (.done _))
    · simp [Event.subject?]
  case h_2 s hok =>
    refine ⟨[.said notice, .saved m snapshot, .reinitialized m, .restored m snapshot],
      by simp [notice, snapshot], ?_, ?_⟩
    · exact .calm rfl (.reload hok (.done _))
    · simp [Event.subject?]

theorem settle (tick : Tick) (due : Bool) (m : Module) (r : Run σ τ) :
    r.Does h (· = m) (r.settle h tick due m).2 := by
  have hlook := isStale (h := h) m r
  rw [Run.settle]
  cases hstale : r.isStale h m with
  | mk stale r₁ =>
    rw [hstale] at hlook
    have hreload := hlook.trans (reloadAt tick m r₁)
    dsimp only
    by_cases hdue : (due || stale) = true
    · rw [if_pos hdue]
      -- Whether the reload succeeds or not, the run is the one after it.
      split
      all_goals
        next hr =>
          rw [hr] at hreload
          exact hreload.mono fun x hx ↦ or_self_iff.mp hx
    · rw [if_neg hdue]
      exact hlook

end Run.Does

/-- **What is done in a call is done to modules in their turns.** -/
theorem Replays.does {w w' : Walk σ τ} {ts : List (Turn σ τ)} (hr : Replays h tick w ts w') :
    w.toRun.Does h (fun x ↦ ∃ t ∈ ts, t.module = x) w'.toRun := by
  induction hr with
  | nil ha => exact (Run.Does.of_asks ha).mono fun _ hx ↦ hx.elim
  | @cons w w' t ts ha _ ih =>
    refine ((Run.Does.of_asks ha).trans
      ((Run.Does.settle tick t.due t.module t.before.toRun).trans ih)).mono ?_
    rintro x (hx | rfl | ⟨s, hs, rfl⟩)
    · exact hx.elim
    · exact ⟨t, List.mem_cons_self, rfl⟩
    · exact ⟨s, List.mem_cons_of_mem _ hs, rfl⟩

end ModuleReload
