import Mathlib.Order.Bounds.Basic
import ModuleReload.Proofs.Watch.Batches

/-!
# When a debouncer wakes up

Until something is heard, a debouncer may sleep until the first time at which it has a batch to give
away. It works out for itself how long that is (`Debouncer.sleep`), apart from the test by which a
batch is given away (`Debouncer.isReady`). The two go by the same times: both wait until what was
stirred last has rested and the last batch is long enough ago, which by the history is one condition
(`Rested`).

They differ in one point. The test also asks whether anything is pending, and the time to sleep does
not: it goes by whether anything was heard since the last batch. So when changes have cancelled out,
as those of a file that was created and removed again, the debouncer waits for a batch that will not
come, and from then on for a millisecond at a time (`Debouncer.Past.sleepsUntilReady_iff`).
-/

namespace ModuleReload

variable {history : List Occurrence} {t u now initial event : Milliseconds}

/-- That by some time all that was stirred has rested, and the last batch is long enough ago. -/
structure Rested (initial : Milliseconds) (history : List Occurrence) (now : Milliseconds) :
    Prop where
  rested : ∀ t, Stirred history t → t + debounceIn initial history ≤ now
  spaced : ∀ t batch, .given t batch ∈ history → t + Debouncer.cooldown ≤ now

/-- That something was heard since the last batch, and nothing is left of it. -/
def Cancelled (history : List Occurrence) : Prop :=
  heardSince history ≠ [] ∧ ∀ p, pendingIn history p = none

namespace Debouncer

variable {d : Debouncer} {p : Path} {c : Change}

/-- The times from some time on at which a batch would be given away if nothing were heard. -/
def readyTimes (d : Debouncer) (t : Milliseconds) : Set Milliseconds :=
  {u | t ≤ u ∧ (d.take u).1 ≠ none}

/-- That the time to sleep is the time until there is a batch, but not less than a millisecond, and
that of an idle debouncer if there will be none. -/
def SleepsUntilReady (d : Debouncer) (t : Milliseconds) : Prop :=
  (∃ s, IsLeast (d.readyTimes t) s ∧ d.sleep t = max 1 (s - t)) ∨
    d.readyTimes t = ∅ ∧ d.sleep t = idle

/-- When the wait that began with an event is over. -/
def waitsUntil (d : Debouncer) (event : Milliseconds) : Milliseconds :=
  max (event + d.debounce) (d.lastBatch.elim 0 (· + cooldown))

theorem take_ne_none_iff : (d.take now).1 ≠ none ↔ d.isReady now = true := by
  cases hready : d.isReady now with
  | false => simp [take_of_not_ready hready]
  | true => simp [take_of_isReady hready]

/-! ## What is heard since the last batch -/

theorem note_lastEvent_ne_none (hevent : d.lastEvent = none → d.pending.get? p = none) :
    (d.note now p c).1.lastEvent ≠ none := by
  rw [note]
  by_cases hsame : c.after (d.pending.get? p) = d.pending.get? p
  · rw [if_pos hsame]
    intro hnone
    rw [hevent hnone] at hsame
    exact Option.some_ne_none c hsame
  · rw [if_neg hsame]
    exact Option.some_ne_none now

theorem noteAll_lastEvent_ne_none (hd : d.Follows initial history t) (hnow : t ≤ now)
    (changes : List (Path × Change)) (hsome : d.lastEvent ≠ none ∨ changes ≠ []) :
    (noteAll now d changes).1.lastEvent ≠ none := by
  induction changes generalizing d history t with
  | nil => exact hsome.resolve_right (fun hne ↦ hne rfl)
  | cons head changes ih =>
    refine ih (hd.note hnow head.1 head.2) le_rfl (.inl (note_lastEvent_ne_none fun hnone ↦ ?_))
    exact Table.isEmpty_iff_get?.mp (hd.calm hnone) head.1

theorem heardSince_append_heard (changes : List (Path × Change)) :
    heardSince (history ++ changes.map fun c ↦ .heard now c.1 c.2) =
      heardSince history ++ changes := by
  induction changes generalizing history with
  | nil => simp
  | cons head changes ih =>
    have hhead :
        heardSince (history ++ [.heard now head.1 head.2]) = heardSince history ++ [head] :=
      heardSince_concat
    rw [List.map_cons, List.append_cons, ih, hhead, List.append_assoc]
    rfl

/-- **There is a last event exactly if something was heard since the last batch.** -/
theorem Past.lastEvent_eq_none_iff (h : Past initial history now d) :
    d.lastEvent = none ↔ heardSince history = [] := by
  induction h with
  | new now => exact iff_of_true rfl rfl
  | @hear history t d hd fs now hnow s ih =>
    rw [heardSince_append_heard, List.append_eq_nil_iff, ← ih]
    constructor
    · intro hnone
      by_contra hsome
      rw [not_and_or] at hsome
      exact noteAll_lastEvent_ne_none hd.follows hnow (s.changes fs) hsome hnone
    · rintro ⟨hnone, hchanges⟩
      rw [Debouncer.hear, hchanges]
      exact hnone
  | @setDebounce history t d hd debounce ih =>
    have hheard : heardSince (history ++ [.set debounce]) = heardSince history ++ [] :=
      heardSince_concat
    rw [hheard, List.append_nil, ← ih]
    rfl
  | @take history t d hd now hnow ih =>
    cases hready : d.isReady now with
    | false =>
      rw [take_of_not_ready hready, Occurrence.answer, heardSince_of_withheld, List.append_nil]
      exact ih
    | true =>
      rw [take_of_isReady hready, Occurrence.answer, heardSince_of_given]
      exact iff_of_true rfl rfl

/-! ## The time of waiting -/

/-- What is left of a wait, by how much of it has passed or by when it is over. -/
theorem remaining_eq {since span now : Nat} (h : since ≤ now) :
    span - (now - since) = since + span - now := by
  omega

namespace Follows

/-- There is a batch to give away exactly if something is pending and all has rested. -/
theorem isReady_iff_rested (hd : d.Follows initial history now) (hu : now ≤ u) :
    d.isReady u = true ↔ (∃ p, pendingIn history p ≠ none) ∧ Rested initial history u := by
  constructor
  · intro hready
    obtain ⟨hnonempty, hfolded, hspaced, hrested⟩ := hd.fair_of_isReady hu hready
    refine ⟨?_, hrested, hspaced⟩
    by_contra hnone
    push Not at hnone
    refine Bool.eq_false_iff.mp hnonempty (Table.isEmpty_iff_get?.mpr fun p ↦ ?_)
    rw [hfolded, hnone]
  · rintro ⟨⟨p, hp⟩, hrested, hspaced⟩
    by_contra hready
    rcases hd.early_of_not_isReady hu (Bool.eq_false_iff.mpr hready) with hnone | hstirred | hgiven
    · exact hp (hnone p)
    · obtain ⟨t, ht, hlt⟩ := hstirred
      exact absurd (hrested t ht) (Nat.not_le_of_lt hlt)
    · obtain ⟨t, batch, ht, hlt⟩ := hgiven
      exact absurd (hspaced t batch ht) (Nat.not_le_of_lt hlt)

/-- All has rested when the wait of the last event is over: it is the latest of all. -/
theorem rested_iff (hd : d.Follows initial history now) (hevent : d.lastEvent = some event) :
    Rested initial history u ↔ d.waitsUntil event ≤ u := by
  obtain ⟨hstirred, hlatest⟩ := hd.event event hevent
  have hbatch : (∀ t batch, .given t batch ∈ history → t + cooldown ≤ u) ↔
      d.lastBatch.elim 0 (· + cooldown) ≤ u := by
    cases hlast : d.lastBatch with
    | none =>
      exact iff_of_true (fun t b ht ↦ absurd ht (hd.batches.first hlast t b)) (Nat.zero_le u)
    | some last =>
      obtain ⟨⟨b, hb⟩, hle⟩ := hd.batches.latest last hlast
      exact ⟨fun h ↦ h last b hb, fun h t b ht ↦ (Nat.add_le_add_right (hle t b ht) _).trans h⟩
  rw [waitsUntil, Nat.max_le, hd.debounce, ← hbatch]
  constructor
  · intro h
    exact ⟨h.rested event hstirred, h.spaced⟩
  · rintro ⟨hrested, hspaced⟩
    exact ⟨fun t ht ↦ (Nat.add_le_add_right (hlatest t ht) _).trans hrested, hspaced⟩

theorem sleep_eq (hd : d.Follows initial history now) (hnow : now ≤ t)
    (hevent : d.lastEvent = some event) : d.sleep t = max 1 (d.waitsUntil event - t) := by
  have hle : event ≤ t := (hd.le event (hd.event event hevent).1).trans hnow
  rw [waitsUntil, ← Nat.sub_max_sub_right, ← remaining_eq hle, Nat.max_comm, sleep, hevent]
  cases hlast : d.lastBatch with
  | none => rw [Option.elim_none, Nat.zero_sub]
  | some last =>
    obtain ⟨⟨b, hb⟩, -⟩ := hd.batches.latest last hlast
    rw [Option.elim_some, ← remaining_eq ((hd.batches.le last b hb).trans hnow)]

/-- Where something was heard since the last batch, the time to sleep is the time until all has
rested. -/
theorem exists_sleep_eq (hd : d.Follows initial history now) (hnow : now ≤ t)
    (hevent : d.lastEvent = some event) :
    ∃ s, IsLeast {u | t ≤ u ∧ Rested initial history u} s ∧ d.sleep t = max 1 (s - t) := by
  refine ⟨max t (d.waitsUntil event), ⟨⟨le_max_left _ _, ?_⟩, ?_⟩, ?_⟩
  · exact (hd.rested_iff hevent).mpr (le_max_right _ _)
  · rintro u ⟨hu, hrested⟩
    exact max_le hu ((hd.rested_iff hevent).mp hrested)
  · rw [hd.sleep_eq hnow hevent, ← Nat.sub_max_sub_right t, Nat.sub_self, Nat.zero_max]

theorem mem_readyTimes_iff (hd : d.Follows initial history now) (hnow : now ≤ t) :
    u ∈ d.readyTimes t ↔ (∃ p, pendingIn history p ≠ none) ∧ t ≤ u ∧ Rested initial history u := by
  rw [readyTimes, Set.mem_ofPred_eq, take_ne_none_iff]
  constructor
  · rintro ⟨hu, hready⟩
    obtain ⟨hpending, hrested⟩ := (hd.isReady_iff_rested (hnow.trans hu)).mp hready
    exact ⟨hpending, hu, hrested⟩
  · rintro ⟨hpending, hu, hrested⟩
    exact ⟨hu, (hd.isReady_iff_rested (hnow.trans hu)).mpr ⟨hpending, hrested⟩⟩

end Follows

/-- **When the time to sleep is the time until there is a batch.** It is so unless all that was
heard since the last batch has cancelled out (or the wait happens to be as long as an idle debouncer
sleeps). Wherever something was heard, it is the time until all has rested, whether or not anything
is pending by then. -/
theorem Past.sleepsUntilReady_iff (h : Past initial history now d) (hnow : now ≤ t) :
    (d.SleepsUntilReady t ↔ ¬Cancelled history ∨ d.sleep t = idle) ∧
      (heardSince history ≠ [] →
        ∃ s, IsLeast {u | t ≤ u ∧ Rested initial history u} s ∧ d.sleep t = max 1 (s - t)) := by
  have hd := h.follows
  by_cases hpending : ∃ p, pendingIn history p ≠ none
  · -- Something is pending, so something was heard, and there is a batch as soon as all has rested.
    obtain ⟨p, hp⟩ := hpending
    have hheard : heardSince history ≠ [] := fun hnil ↦ hp (by rw [pendingIn, hnil]; rfl)
    obtain ⟨event, hevent⟩ := Option.ne_none_iff_exists'.mp (mt h.lastEvent_eq_none_iff.mp hheard)
    have hready : d.readyTimes t = {u | t ≤ u ∧ Rested initial history u} := by
      ext u
      rw [hd.mem_readyTimes_iff hnow, Set.mem_ofPred_eq, and_iff_right ⟨p, hp⟩]
    have hsleep := hd.exists_sleep_eq hnow hevent
    refine ⟨iff_of_true (.inl (hready ▸ hsleep)) (.inl fun hcancelled ↦ hp (hcancelled.2 p)),
      fun _ ↦ hsleep⟩
  · have hready : d.readyTimes t = ∅ := by
      refine Set.eq_empty_iff_forall_notMem.mpr fun u hu ↦ hpending ?_
      exact ((hd.mem_readyTimes_iff hnow).mp hu).1
    have hagrees : d.SleepsUntilReady t ↔ d.sleep t = idle := by
      rw [SleepsUntilReady, hready]
      simp [IsLeast]
    push Not at hpending
    by_cases hheard : heardSince history = []
    · have hidle : d.sleep t = idle := by rw [sleep, h.lastEvent_eq_none_iff.mpr hheard]
      exact ⟨iff_of_true (hagrees.mpr hidle) (.inr hidle), fun hne ↦ absurd hheard hne⟩
    · obtain ⟨event, hevent⟩ := Option.ne_none_iff_exists'.mp (mt h.lastEvent_eq_none_iff.mp hheard)
      refine ⟨hagrees.trans ?_, fun _ ↦ hd.exists_sleep_eq hnow hevent⟩
      rw [or_iff_right (fun hnot ↦ hnot ⟨hheard, hpending⟩)]

/-! ## A file that came and went -/

/-- The busy file is created and removed again. -/
def fleeting : List Occurrence := [.heard 0 .busy .created, .heard 100 .busy .removed]

/-- Nothing is pending afterwards, but the debouncer does not sleep like an idle one: it sleeps
until the time of rest is over, and then it wakes up every millisecond, for ever. -/
theorem fleeting_wakes_for_ever :
    ∃ d, Past 300 fleeting 100 d ∧ Cancelled fleeting ∧ d.sleep 100 = 300 ∧
      ∀ t, 400 ≤ t → ¬d.SleepsUntilReady t ∧ d.sleep t = 1 := by
  have hcreated : Past 300 [.heard 0 .busy .created] 0 ⟨busyBatch .created, some 0, none, 300⟩ :=
    (Past.new 0).hear_busy le_rfl .created rfl rfl
  have hremoved := hcreated.hear .empty (by decide : 0 ≤ 100) ⟨.removed, [.busy]⟩
  have hchanges : (Signal.mk .removed [.busy]).changes .empty = [(.busy, .removed)] :=
    Signal.changes_busy rfl
  rw [hear, hchanges] at hremoved
  have hd : Past 300 fleeting 100 ⟨.empty, some 100, none, 300⟩ := hremoved
  have hcancelled : Cancelled fleeting := by
    refine ⟨by decide, fun p ↦ ?_⟩
    rw [← hd.follows.pending]
    rfl
  refine ⟨_, hd, hcancelled, rfl, fun t ht ↦ ?_⟩
  have hsleep : sleep t ⟨.empty, some 100, none, 300⟩ = 1 := by
    have hover : 400 - t = 0 := Nat.sub_eq_zero_of_le ht
    rw [hd.follows.sleep_eq ((by decide : 100 ≤ 400).trans ht) rfl]
    exact congrArg (max 1) hover
  refine ⟨?_, hsleep⟩
  rw [(hd.sleepsUntilReady_iff ((by decide : 100 ≤ 400).trans ht)).1, hsleep]
  exact fun h ↦ h.elim (fun hnot ↦ hnot hcancelled) (by decide)

end Debouncer

end ModuleReload
