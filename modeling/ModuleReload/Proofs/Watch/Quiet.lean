import ModuleReload.Proofs.Watch.Batches

/-!
# Quiet before a batch

The time of rest is meant as a time of quiet: no change is heard of for that long before a batch is
given away. What a batch does wait for is less, namely that nothing has changed what is pending
(`Fair.rested`).

The difference are the repeats. A change of a file for which another one is pending changes nothing
if both leave the file there or both remove it (`Change.Repeats`). So whatever is heard within the
time of rest before a batch is a repeat, and the time was quiet exactly if there was none
(`Debouncer.Past.quiet_iff`). A file that is saved in several steps is the case where there are: a
batch may be given away between two of them.
-/

namespace ModuleReload

/-- That a change is no news beside what is pending for its file: both leave it there, or both
remove it. -/
def Change.Repeats (pending : Option Change) (c : Change) : Prop :=
  ∃ first, pending = some first ∧ (first = removed ↔ c = removed)

/-- A change leaves what is pending as it is exactly if it is a repeat. -/
theorem Change.after_eq_self_iff {pending : Option Change} {c : Change} :
    c.after pending = pending ↔ Repeats pending c := by
  cases pending with
  | none => simp [after, Repeats]
  | some first => cases first <;> cases c <;> simp [after, Repeats]

/-- That a signal tells of a change of a file by one of its paths: the path is not one that is
passed over, and the kind of signal is one of change. -/
def Signal.TellsOf (fs : FileSystem) (s : Signal) (p : Path) (c : Change) : Prop :=
  ∃ q ∈ s.paths, isTemporary q = false ∧ change? fs q s.kind = some c ∧ p = fs.normalize q

theorem Signal.mem_changes_iff {fs : FileSystem} {s : Signal} {p : Path} {c : Change} :
    (p, c) ∈ s.changes fs ↔ s.TellsOf fs p c := by
  rw [changes, List.mem_filterMap]
  refine exists_congr fun q ↦ and_congr_right fun _ ↦ ?_
  cases isTemporary q with
  | true => simp
  | false =>
    simp only [Bool.false_eq_true, ↓reduceIte, true_and, Option.map_eq_some_iff, Prod.mk.injEq]
    constructor
    · rintro ⟨_, hc, rfl, rfl⟩
      exact ⟨hc, rfl⟩
    · rintro ⟨hc, rfl⟩
      exact ⟨c, hc, rfl, rfl⟩

/-- That by some time no change was heard of for the time of rest. -/
def Quiet (initial : Milliseconds) (history : List Occurrence) (now : Milliseconds) : Prop :=
  ∀ t p c, .heard t p c ∈ history → t + debounceIn initial history ≤ now

variable {history before : List Occurrence} {t u now initial : Milliseconds} {p : Path} {c : Change}
  {batch : PendingChanges}

/-- What was heard was heard at some moment, and what was heard at a moment was heard. -/
theorem mem_iff_exists_moment {o : Occurrence} :
    o ∈ history ↔ ∃ earlier, earlier ++ [o] <+: history := by
  constructor
  · intro ho
    obtain ⟨earlier, later, rfl⟩ := List.append_of_mem ho
    exact ⟨earlier, later, by simp⟩
  · rintro ⟨earlier, h⟩
    exact h.subset (by simp)

theorem Stirred.of_not_repeats {earlier : List Occurrence}
    (h : earlier ++ [.heard u p c] <+: history) (hnew : ¬Change.Repeats (pendingIn earlier p) c) :
    Stirred history u := by
  refine ⟨earlier, p, c, h, ?_⟩
  rw [pendingIn_heard, if_pos rfl]
  exact mt Change.after_eq_self_iff.mp hnew

namespace Debouncer

variable {d : Debouncer}

theorem Past.exists_tellsOf (h : Past initial history now d) (hheard : .heard t p c ∈ history) :
    ∃ fs s, Signal.TellsOf fs s p c := by
  induction h with
  | new => exact absurd hheard List.not_mem_nil
  | hear _ fs _ s ih =>
    rcases List.mem_append.mp hheard with hheard | hheard
    · exact ih hheard
    · obtain ⟨change, hchange, ho⟩ := List.mem_map.mp hheard
      obtain ⟨-, rfl, rfl⟩ := Occurrence.heard.inj ho
      exact ⟨fs, s, Signal.mem_changes_iff.mp hchange⟩
  | setDebounce _ debounce ih =>
    exact ih ((List.mem_append.mp hheard).resolve_right (by simp))
  | @take _ _ d _ now _ ih =>
    refine ih ((List.mem_append.mp hheard).resolve_right ?_)
    cases (d.take now).1 <;> simp [Occurrence.answer]

/-- **How quiet it is before a batch.** Whatever is heard within the time of rest before a batch is
a change that a signal tells of, and a repeat of what was pending for its file by then. So the time
was quiet exactly if no repeat was heard in it. -/
theorem Past.quiet_iff (h : Past initial history now d) {after : List Occurrence}
    (hgiven : history = before ++ .given t batch :: after) :
    (∀ earlier u p c, earlier ++ [.heard u p c] <+: before → t < u + debounceIn initial before →
        (∃ fs s, Signal.TellsOf fs s p c) ∧ Change.Repeats (pendingIn earlier p) c) ∧
      (Quiet initial before t ↔
        ∀ earlier u p c, earlier ++ [.heard u p c] <+: before →
          Change.Repeats (pendingIn earlier p) c → u + debounceIn initial before ≤ t) := by
  have hrested := (h.follows.lawful.fair before t batch ⟨after, by simp [hgiven]⟩).rested
  have hrepeats : ∀ earlier u p c, earlier ++ [.heard u p c] <+: before →
      t < u + debounceIn initial before → Change.Repeats (pendingIn earlier p) c := by
    intro earlier u p c hmoment hlate
    by_contra hnew
    exact absurd (hrested u (.of_not_repeats hmoment hnew)) (Nat.not_le_of_lt hlate)
  refine ⟨fun earlier u p c hmoment hlate ↦ ⟨?_, hrepeats earlier u p c hmoment hlate⟩, ?_⟩
  · refine h.exists_tellsOf (t := u) ?_
    rw [hgiven]
    exact List.mem_append_left _ (mem_iff_exists_moment.mpr ⟨earlier, hmoment⟩)
  · constructor
    · intro hquiet earlier u p c hmoment _
      exact hquiet u p c (mem_iff_exists_moment.mpr ⟨earlier, hmoment⟩)
    · intro hnone u p c hheard
      obtain ⟨earlier, hmoment⟩ := mem_iff_exists_moment.mp hheard
      by_contra hlate
      exact hlate
        (hnone earlier u p c hmoment (hrepeats earlier u p c hmoment (Nat.lt_of_not_le hlate)))

/-! ## A file saved in two steps -/

/-- The busy file is written, and written on a little later. -/
def saving : List Occurrence := [.heard 0 .busy .modified, .heard 200 .busy .modified]

/-- The batch is given away after the time of rest from the first write, though the second is not as
long ago. -/
theorem saving_not_quiet :
    ∃ d, Past 300 (saving ++ [.given 300 (busyBatch .modified)]) 300 d ∧ ¬Quiet 300 saving 300 := by
  have hfirst : Past 300 [.heard 0 .busy .modified] 0 ⟨busyBatch .modified, some 0, none, 300⟩ :=
    (Past.new 0).hear_busy le_rfl .changed rfl rfl
  have hsecond := hfirst.hear .empty (by decide : 0 ≤ 200) ⟨.changed, [.busy]⟩
  have hchanges : (Signal.mk .changed [.busy]).changes .empty = [(.busy, .modified)] :=
    Signal.changes_busy rfl
  rw [hear, hchanges] at hsecond
  have hsaved : Past 300 saving 200 ⟨busyBatch .modified, some 0, none, 300⟩ := hsecond
  have hgiven := hsaved.give (by decide : 200 ≤ 300) (by decide)
  refine ⟨_, hgiven, fun hquiet ↦ ?_⟩
  have hrepeat : Change.Repeats (pendingIn [.heard 0 .busy .modified] .busy) .modified :=
    ⟨.modified, rfl, Iff.rfl⟩
  have hlate := (hgiven.quiet_iff rfl).2.mp hquiet [.heard 0 .busy .modified] 200 .busy .modified
    List.prefix_rfl hrepeat
  exact absurd hlate (by decide)

end Debouncer

end ModuleReload
