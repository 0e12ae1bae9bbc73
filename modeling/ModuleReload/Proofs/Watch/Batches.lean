import Mathlib.Data.List.DropRight
import ModuleReload.Proofs.Watch.Pending

/-!
# Batches of changes

What happens to a debouncer is told by a history of occurrences, the latest at its end. What is
pending for a file, when that was last changed and which time of rest is in force are all read off
the history (`pendingIn`, `Stirred`, `debounceIn`), without the debouncer: what is pending is the
fold of `Change.after` over the changes of the file that were heard since the last batch.

The run theorem (`Debouncer.Past.batches_fair`) says that the debouncer agrees with its history at
all times; that each batch is what was pending by the history, is not empty, and comes a cooldown
after every batch before it and the time of rest after whatever last changed what is pending; and
that a batch is withheld only where one of these would fail. The invariant behind it is
`Debouncer.Follows`, which one occurrence after the other keeps.
-/

namespace ModuleReload

/-! ## Histories -/

/-- What happens to a debouncer. -/
inductive Occurrence
  /-- A change of a file is heard of. -/
  | heard (time : Milliseconds) (p : Path) (c : Change)
  /-- The time of rest is set. -/
  | set (debounce : Milliseconds)
  /-- A batch is asked for and given away. -/
  | given (time : Milliseconds) (batch : PendingChanges)
  /-- A batch is asked for and withheld. -/
  | withheld (time : Milliseconds)

namespace Occurrence

/-- Whether a batch is given away. -/
def isGiven : Occurrence → Bool
  | given .. => true
  | _ => false

/-- The change that is heard of. -/
def change? : Occurrence → Option (Path × Change)
  | heard _ p c => some (p, c)
  | _ => none

/-- The time of rest from then on. -/
def rest (debounce : Milliseconds) : Occurrence → Milliseconds
  | set debounce => debounce
  | _ => debounce

/-- How the question for a batch is answered. -/
def answer (now : Milliseconds) : Option PendingChanges → Occurrence
  | some batch => given now batch
  | none => withheld now

end Occurrence

/-- The changes heard of since the last batch. -/
def heardSince (history : List Occurrence) : List (Path × Change) :=
  (history.rtakeWhile (!·.isGiven)).filterMap Occurrence.change?

/-- What is pending for a file by a history. -/
def pendingIn (history : List Occurrence) (p : Path) : Option Change :=
  Change.afterAll none (Change.ofPath p (heardSince history))

/-- That at some time a change was heard of that changed what was pending. -/
def Stirred (history : List Occurrence) (t : Milliseconds) : Prop :=
  ∃ before p c, before ++ [.heard t p c] <+: history ∧
    pendingIn (before ++ [.heard t p c]) p ≠ pendingIn before p

/-- The time of rest in force after a history that began with another one. -/
def debounceIn (initial : Milliseconds) (history : List Occurrence) : Milliseconds :=
  history.foldl Occurrence.rest initial

variable {history before : List Occurrence} {o x : Occurrence} {t u now initial : Milliseconds}
  {p q : Path} {c : Change} {batch : PendingChanges}

/-- What was a moment of a history is one of a longer history, whose last moment is the only other
one. -/
theorem moment_concat_iff :
    before ++ [o] <+: history ++ [x] ↔ before = history ∧ o = x ∨ before ++ [o] <+: history := by
  rw [List.prefix_concat_iff]
  constructor
  · rintro (h | h)
    · exact .inl (by simpa using h)
    · exact .inr h
  · rintro (⟨rfl, rfl⟩ | h)
    · exact .inl rfl
    · exact .inr h

theorem heardSince_concat :
    heardSince (history ++ [o]) = if o.isGiven then [] else heardSince history ++
      o.change?.toList := by
  rw [heardSince, List.rtakeWhile_concat]
  cases o <;> simp [heardSince, Occurrence.isGiven, Occurrence.change?]

theorem heardSince_of_given (before after : List Occurrence) :
    heardSince (before ++ .given t batch :: after) = heardSince after := by
  induction after using List.reverseRecOn with
  | nil => exact heardSince_concat
  | append_singleton after o ih =>
    rw [← List.cons_append, ← List.append_assoc, heardSince_concat, heardSince_concat, ih]

/-- A batch that is withheld loses nothing. -/
theorem heardSince_of_withheld (before after : List Occurrence) :
    heardSince (before ++ .withheld t :: after) = heardSince (before ++ after) := by
  induction after using List.reverseRecOn with
  | nil =>
    have hlast : heardSince (before ++ [.withheld t]) = heardSince before ++ [] := heardSince_concat
    rw [hlast, List.append_nil, List.append_nil]
  | append_singleton after o ih =>
    rw [← List.cons_append, ← List.append_assoc, ← List.append_assoc, heardSince_concat,
      heardSince_concat, ih]

theorem pendingIn_heard :
    pendingIn (history ++ [.heard t q c]) p =
      if p = q then c.after (pendingIn history q) else pendingIn history p := by
  have hheard : heardSince (history ++ [.heard t q c]) = heardSince history ++ [(q, c)] :=
    heardSince_concat
  rw [pendingIn, hheard, Change.ofPath_append, Change.afterAll_append, ← pendingIn]
  by_cases hq : q = p
  · subst hq
    rw [if_pos rfl, Change.ofPath_cons_self]
    rfl
  · rw [if_neg (Ne.symm hq), Change.ofPath_cons_of_ne hq]
    rfl

theorem pendingIn_set : pendingIn (history ++ [.set t]) p = pendingIn history p := by
  have hheard : heardSince (history ++ [.set t]) = heardSince history ++ [] := heardSince_concat
  rw [pendingIn, hheard, List.append_nil, pendingIn]

theorem pendingIn_withheld : pendingIn (history ++ [.withheld t]) p = pendingIn history p := by
  rw [pendingIn, heardSince_of_withheld, List.append_nil, pendingIn]

theorem pendingIn_given : pendingIn (history ++ [.given t batch]) p = none := by
  rw [pendingIn, heardSince_concat]
  rfl

theorem debounceIn_concat :
    debounceIn initial (history ++ [o]) = o.rest (debounceIn initial history) :=
  List.foldl_append

/-- What is pending was changed before, or it is changed by the last occurrence. -/
theorem stirred_concat_iff :
    Stirred (history ++ [o]) t ↔
      Stirred history t ∨
        ∃ p c, o = .heard t p c ∧ c.after (pendingIn history p) ≠ pendingIn history p := by
  simp only [Stirred, moment_concat_iff, pendingIn_heard, if_pos]
  constructor
  · rintro ⟨before, p, c, ⟨rfl, rfl⟩ | h, hne⟩
    · exact .inr ⟨p, c, rfl, hne⟩
    · exact .inl ⟨before, p, c, h, hne⟩
  · rintro (⟨before, p, c, h, hne⟩ | ⟨p, c, rfl, hne⟩)
    · exact ⟨before, p, c, .inr h, hne⟩
    · exact ⟨history, p, c, .inl ⟨rfl, rfl⟩, hne⟩

/-! ## What a batch has to be -/

/-- That a batch is what has come to rest by a history. -/
structure Fair (initial : Milliseconds) (before : List Occurrence) (now : Milliseconds)
    (batch : PendingChanges) : Prop where
  nonempty : batch.isEmpty = false
  folded : ∀ p, batch.get? p = pendingIn before p
  spaced : ∀ t earlier, .given t earlier ∈ before → t + Debouncer.cooldown ≤ now
  rested : ∀ t, Stirred before t → t + debounceIn initial before ≤ now

/-- That no batch could be fair: nothing is pending, or something was stirred or given away too
shortly before. -/
def Early (initial : Milliseconds) (before : List Occurrence) (now : Milliseconds) : Prop :=
  (∀ p, pendingIn before p = none) ∨
    (∃ t, Stirred before t ∧ now < t + debounceIn initial before) ∨
    ∃ t earlier, .given t earlier ∈ before ∧ now < t + Debouncer.cooldown

theorem Table.isEmpty_iff_get? {κ α : Type} [DecidableEq κ] {t : Table κ α} :
    t.isEmpty = true ↔ ∀ k, t.get? k = none := by
  obtain ⟨entries, h⟩ := t
  cases entries with
  | nil => simp [isEmpty, get?]
  | cons e entries =>
    simp only [isEmpty, List.isEmpty_cons, Bool.false_eq_true, get?, false_iff, not_forall]
    exact ⟨e.1, by simp⟩

namespace Debouncer

variable {d : Debouncer}

theorem take_of_isReady (hready : d.isReady now = true) :
    d.take now =
      (some d.pending, { d with pending := .empty, lastEvent := none, lastBatch := some now }) := by
  rw [Debouncer.take, if_pos hready]

theorem hasPassed_iff {span since : Milliseconds} (h : since ≤ now) :
    hasPassed span now since = true ↔ since + span ≤ now := by
  rw [hasPassed, decide_eq_true_iff, Nat.le_sub_iff_add_le h, Nat.add_comm]

theorem isReady_iff :
    d.isReady now = true ↔
      (∃ t, d.lastEvent = some t ∧ hasPassed d.debounce now t = true) ∧
        (∀ t, d.lastBatch = some t → hasPassed cooldown now t = true) ∧
        d.pending.isEmpty = false := by
  simp [isReady, Option.any_eq_true, Option.all_eq_true, and_assoc]

/-- A debouncer that began with a time of rest, what has happened to it, and the time by then. -/
inductive Past (initial : Milliseconds) : List Occurrence → Milliseconds → Debouncer → Prop
  | new (now : Milliseconds) : Past initial [] now (new initial)
  | hear {history : List Occurrence} {t : Milliseconds} {d : Debouncer}
      (hd : Past initial history t d)
      (fs : FileSystem) {now : Milliseconds} (hnow : t ≤ now) (s : Signal) :
      Past initial (history ++ (s.changes fs).map fun c ↦ .heard now c.1 c.2) now
        (d.hear fs now s).1
  | setDebounce {history : List Occurrence} {t : Milliseconds} {d : Debouncer}
      (hd : Past initial history t d) (debounce : Milliseconds) :
      Past initial (history ++ [.set debounce]) t (d.setDebounce debounce)
  | take {history : List Occurrence} {t : Milliseconds} {d : Debouncer}
      (hd : Past initial history t d) {now : Milliseconds} (hnow : t ≤ now) :
      Past initial (history ++ [.answer now (d.take now).1]) now (d.take now).2

/-- That the last time at which a batch was given away is the one by the history. -/
structure LastGiven (history : List Occurrence) (now : Milliseconds) (last : Option Milliseconds) :
    Prop where
  latest : ∀ t, last = some t →
    (∃ b, .given t b ∈ history) ∧ ∀ u b, .given u b ∈ history → u ≤ t
  first : last = none → ∀ u b, .given u b ∉ history
  le : ∀ t b, .given t b ∈ history → t ≤ now

/-- That each batch of a history is fair, and that none is withheld that could be. -/
structure Lawful (initial : Milliseconds) (history : List Occurrence) : Prop where
  fair : ∀ before t b, before ++ [.given t b] <+: history → Fair initial before t b
  early : ∀ before t, before ++ [.withheld t] <+: history → Early initial before t

/-- That a debouncer agrees with its history. -/
structure Follows (initial : Milliseconds) (history : List Occurrence) (now : Milliseconds)
    (d : Debouncer) : Prop where
  pending : ∀ p, d.pending.get? p = pendingIn history p
  debounce : d.debounce = debounceIn initial history
  /-- The last event is the latest time at which something was stirred. -/
  event : ∀ t, d.lastEvent = some t → Stirred history t ∧ ∀ u, Stirred history u → u ≤ t
  /-- Without a last event nothing is pending. -/
  calm : d.lastEvent = none → d.pending.isEmpty = true
  le : ∀ t, Stirred history t → t ≤ now
  batches : LastGiven history now d.lastBatch
  lawful : Lawful initial history

theorem LastGiven.concat {last : Option Milliseconds} (h : LastGiven history t last)
    (hnow : t ≤ now) (ho : o.isGiven = false) : LastGiven (history ++ [o]) now last := by
  have hmem : ∀ u b, .given u b ∈ history ++ [o] ↔ .given u b ∈ history := by
    intro u b
    cases o <;> simp_all [Occurrence.isGiven]
  exact ⟨by simpa [hmem] using h.latest, by simpa [hmem] using h.first,
    fun u b hu ↦ (h.le u b ((hmem u b).mp hu)).trans hnow⟩

theorem LastGiven.given {last : Option Milliseconds} (h : LastGiven history t last) (hnow : t ≤ now)
    (batch : PendingChanges) : LastGiven (history ++ [.given now batch]) now (some now) := by
  have hle : ∀ u b, .given u b ∈ history ++ [.given now batch] → u ≤ now := by
    intro u b hu
    rcases List.mem_append.mp hu with hu | hu
    · exact (h.le u b hu).trans hnow
    · exact (Occurrence.given.inj (List.mem_singleton.mp hu)).1.le
  refine ⟨?_, by simp, hle⟩
  rintro _ ⟨⟩
  exact ⟨⟨batch, by simp⟩, hle⟩

theorem Lawful.concat (h : Lawful initial history)
    (hfair : ∀ u b, o = .given u b → Fair initial history u b)
    (hearly : ∀ u, o = .withheld u → Early initial history u) :
    Lawful initial (history ++ [o]) := by
  refine ⟨fun before u b hb ↦ ?_, fun before u hb ↦ ?_⟩
  · rcases moment_concat_iff.mp hb with ⟨rfl, ho⟩ | hb
    · exact hfair u b ho.symm
    · exact h.fair before u b hb
  · rcases moment_concat_iff.mp hb with ⟨rfl, ho⟩ | hb
    · exact hearly u ho.symm
    · exact h.early before u hb

namespace Follows

theorem new (initial now : Milliseconds) : Follows initial [] now (new initial) where
  pending _ := rfl
  debounce := rfl
  event _ h := by simp [Debouncer.new] at h
  calm _ := rfl
  le _ h := by simp [Stirred] at h
  batches := ⟨by simp [Debouncer.new], by simp, by simp⟩
  lawful := ⟨by simp, by simp⟩

theorem later (hd : d.Follows initial history t) (hnow : t ≤ now) : d.Follows initial history now :=
  { hd with
    le := fun u hu ↦ (hd.le u hu).trans hnow
    batches := { hd.batches with le := fun u b hu ↦ (hd.batches.le u b hu).trans hnow } }

/-- A change is put on top of what is pending. Only where it changes that, the wait begins anew. -/
theorem note (hd : d.Follows initial history t) (hnow : t ≤ now) (p : Path) (c : Change) :
    (d.note now p c).1.Follows initial (history ++ [.heard now p c]) now := by
  have hle : ∀ u, Stirred (history ++ [.heard now p c]) u → u ≤ now := by
    intro u hu
    rcases stirred_concat_iff.mp hu with hu | ⟨_, _, ho, -⟩
    · exact (hd.le u hu).trans hnow
    · exact (Occurrence.heard.inj ho).1.ge
  have hpending :
      ∀ q, (d.note now p c).1.pending.get? q = pendingIn (history ++ [.heard now p c]) q := by
    intro q
    rw [get?_note, pendingIn_heard, hd.pending, hd.pending]
  have hdebounce : d.debounce = debounceIn initial (history ++ [.heard now p c]) := by
    rw [debounceIn_concat, hd.debounce]
    rfl
  have hbatches : LastGiven (history ++ [.heard now p c]) now d.lastBatch :=
    hd.batches.concat hnow rfl
  have hlawful : Lawful initial (history ++ [.heard now p c]) :=
    hd.lawful.concat (by simp) (by simp)
  by_cases hsame : c.after (d.pending.get? p) = d.pending.get? p
  · have hnote : (d.note now p c).1 = d := by rw [Debouncer.note, if_pos hsame]
    have hstirred : ∀ u, Stirred (history ++ [.heard now p c]) u ↔ Stirred history u := by
      intro u
      rw [hd.pending] at hsame
      rw [stirred_concat_iff, or_iff_left]
      rintro ⟨_, _, ho, hne⟩
      obtain ⟨-, rfl, rfl⟩ := Occurrence.heard.inj ho
      exact hne hsame
    rw [hnote] at hpending ⊢
    exact ⟨hpending, hdebounce, by simpa only [hstirred] using hd.event,
      hd.calm, hle, hbatches, hlawful⟩
  · have hnote : (d.note now p c).1 =
        { d with
          pending := d.pending.set p (c.after (d.pending.get? p))
          lastEvent := some now } := by
      rw [Debouncer.note, if_neg hsame]
    rw [hnote] at hpending ⊢
    refine ⟨hpending, hdebounce, ?_, by simp, hle, hbatches, hlawful⟩
    rintro _ ⟨⟩
    rw [hd.pending] at hsame
    exact ⟨stirred_concat_iff.mpr (.inr ⟨p, c, rfl, hsame⟩), hle⟩

theorem noteAll (hd : d.Follows initial history t) (hnow : t ≤ now)
    (changes : List (Path × Change)) :
    (noteAll now d changes).1.Follows initial
      (history ++ changes.map fun c ↦ .heard now c.1 c.2) now := by
  induction changes generalizing d history t with
  | nil => simpa [Debouncer.noteAll] using hd.later hnow
  | cons head changes ih =>
    have h := ih (hd.note hnow head.1 head.2) le_rfl
    rw [List.append_assoc] at h
    exact h

theorem setDebounce (hd : d.Follows initial history t) (debounce : Milliseconds) :
    (d.setDebounce debounce).Follows initial (history ++ [.set debounce]) t where
  pending p := by rw [pendingIn_set]; exact hd.pending p
  debounce := by rw [debounceIn_concat]; rfl
  event t ht := by simpa [stirred_concat_iff] using hd.event t ht
  calm := hd.calm
  le := by simpa [stirred_concat_iff] using hd.le
  batches := hd.batches.concat le_rfl rfl
  lawful := hd.lawful.concat (by simp) (by simp)

/-! ### Giving away -/

theorem fair_of_isReady (hd : d.Follows initial history t) (hnow : t ≤ now)
    (hready : d.isReady now = true) : Fair initial history now d.pending := by
  obtain ⟨⟨event, hevent, hrested⟩, hcooled, hpending⟩ := isReady_iff.mp hready
  refine ⟨hpending, hd.pending, fun u b hu ↦ ?_, fun u hu ↦ ?_⟩
  · cases hlast : d.lastBatch with
    | none => exact absurd hu (hd.batches.first hlast u b)
    | some last =>
      obtain ⟨⟨b', hb'⟩, hlatest⟩ := hd.batches.latest last hlast
      have hpassed :=
        (hasPassed_iff ((hd.batches.le last b' hb').trans hnow)).mp (hcooled last hlast)
      exact (Nat.add_le_add_right (hlatest u b hu) _).trans hpassed
  · obtain ⟨hstirred, hlatest⟩ := hd.event event hevent
    have hpassed := (hasPassed_iff ((hd.le event hstirred).trans hnow)).mp hrested
    rw [← hd.debounce]
    exact (Nat.add_le_add_right (hlatest u hu) _).trans hpassed

/-- Whatever is withheld is not ready: were it not too early, it would be. -/
theorem early_of_not_isReady (hd : d.Follows initial history t) (hnow : t ≤ now)
    (hready : d.isReady now = false) : Early initial history now := by
  by_contra hearly
  obtain ⟨hsome, hrested, hcooled⟩ : ¬(∀ p, pendingIn history p = none) ∧
      (∀ u, Stirred history u → u + debounceIn initial history ≤ now) ∧
        ∀ u b, .given u b ∈ history → u + cooldown ≤ now := by
    simpa [Early] using hearly
  have hpending : d.pending.isEmpty = false := by
    rw [← Bool.not_eq_true, Table.isEmpty_iff_get?]
    simpa only [hd.pending] using hsome
  refine Bool.eq_false_iff.mp hready (isReady_iff.mpr ⟨?_, fun last hlast ↦ ?_, hpending⟩)
  · obtain ⟨event, hevent⟩ := Option.ne_none_iff_exists'.mp fun h ↦ by simp [hd.calm h] at hpending
    obtain ⟨hstirred, -⟩ := hd.event event hevent
    rw [← hd.debounce] at hrested
    exact ⟨event, hevent,
      (hasPassed_iff ((hd.le event hstirred).trans hnow)).mpr (hrested event hstirred)⟩
  · obtain ⟨⟨b, hb⟩, -⟩ := hd.batches.latest last hlast
    exact (hasPassed_iff ((hd.batches.le last b hb).trans hnow)).mpr (hcooled last b hb)

/-- A batch that is given away leaves nothing behind, and one that is withheld stays as it is. -/
theorem take (hd : d.Follows initial history t) (hnow : t ≤ now) :
    (d.take now).2.Follows initial (history ++ [.answer now (d.take now).1]) now := by
  cases hready : d.isReady now with
  | false =>
    rw [take_of_not_ready hready]
    exact
      { pending := fun p ↦ (hd.pending p).trans pendingIn_withheld.symm
        debounce := by rw [debounceIn_concat]; exact hd.debounce
        event := fun u hu ↦ by simpa [stirred_concat_iff, Occurrence.answer] using hd.event u hu
        calm := hd.calm
        le := fun u hu ↦ (hd.le u (by simpa [stirred_concat_iff, Occurrence.answer] using hu)).trans
          hnow
        batches := hd.batches.concat hnow rfl
        lawful := hd.lawful.concat (by simp [Occurrence.answer])
          fun u hu ↦ by
            obtain rfl := Occurrence.withheld.inj hu; exact hd.early_of_not_isReady hnow hready }
  | true =>
    rw [take_of_isReady hready]
    exact
      { pending := fun p ↦ pendingIn_given.symm
        debounce := by rw [debounceIn_concat]; exact hd.debounce
        event := by simp
        calm := fun _ ↦ rfl
        le := fun u hu ↦ (hd.le u (by simpa [stirred_concat_iff, Occurrence.answer] using hu)).trans
          hnow
        batches := hd.batches.given hnow d.pending
        lawful := hd.lawful.concat
          (fun u b hu ↦ by
            obtain ⟨rfl, rfl⟩ := Occurrence.given.inj hu; exact hd.fair_of_isReady hnow hready)
          (by simp [Occurrence.answer]) }

end Follows

theorem Past.follows (h : Past initial history now d) : d.Follows initial history now := by
  induction h with
  | new now => exact .new initial now
  | hear _ _ hnow _ ih => exact ih.noteAll hnow _
  | setDebounce _ debounce ih => exact ih.setDebounce debounce
  | take _ hnow ih => exact ih.take hnow

/-- **Batches are lossless, disjoint and spaced.** At all times what is pending for a file is the
fold of the changes of the file heard since the last batch: nothing that was given away comes back,
and nothing is lost where a batch was withheld. Every batch is what was pending, is not empty, and
has come to rest; and where one is withheld, there was none to give. -/
theorem Past.batches_fair (h : Past initial history now d) :
    (∀ p, d.pending.get? p = pendingIn history p) ∧
      (∀ before t batch after, history = before ++ .given t batch :: after →
        Fair initial before t batch ∧ ∀ p, d.pending.get? p = pendingIn after p) ∧
      ∀ before t after, history = before ++ .withheld t :: after →
        Early initial before t ∧ ∀ p, d.pending.get? p = pendingIn (before ++ after) p := by
  obtain ⟨hpending, -, -, -, -, -, hlawful⟩ := h.follows
  refine ⟨hpending, ?_, ?_⟩
  · rintro before t batch after rfl
    refine ⟨hlawful.fair before t batch ⟨after, by simp⟩, fun p ↦ ?_⟩
    rw [hpending, pendingIn, heardSince_of_given, pendingIn]
  · rintro before t after rfl
    refine ⟨hlawful.early before t ⟨after, by simp⟩, fun p ↦ ?_⟩
    rw [hpending, pendingIn, heardSince_of_withheld, pendingIn]

/-! ## Two batches -/

/-- The batch of one change of the busy file. -/
def busyBatch (c : Change) : PendingChanges := ⟨[(.busy, c)], by simp⟩

theorem Past.hear_busy (hd : Past initial history t d) (hnow : t ≤ now) (kind : SignalKind)
    (hc : Signal.change? .empty .busy kind = some c) (hnone : d.pending = .empty) :
    Past initial (history ++ [.heard now .busy c]) now
      { d with pending := busyBatch c, lastEvent := some now } := by
  have h := hd.hear .empty hnow ⟨kind, [.busy]⟩
  rw [Debouncer.hear, Signal.changes_busy hc] at h
  obtain ⟨pending, lastEvent, lastBatch, debounce⟩ := d
  subst hnone
  exact h

theorem Past.withhold (hd : Past initial history t d) (hnow : t ≤ now)
    (hready : d.isReady now = false) : Past initial (history ++ [.withheld now]) now d := by
  have h := hd.take hnow
  rwa [take_of_not_ready hready] at h

theorem Past.give (hd : Past initial history t d) (hnow : t ≤ now) (hready : d.isReady now = true) :
    Past initial (history ++ [.given now d.pending]) now
      { d with pending := .empty, lastEvent := none, lastBatch := some now } := by
  have h := hd.take hnow
  rwa [take_of_isReady hready] at h

/-- A file is modified and the time of rest runs out, then it is removed and the cooldown does. Each
time a batch is asked for too early first. -/
theorem busy_batches :
    ∃ d, Past 300 [.heard 0 .busy .modified, .withheld 200, .given 300 (busyBatch .modified),
        .heard 400 .busy .removed, .set 100, .withheld 1000, .given 1100 (busyBatch .removed)] 1100
        d ∧
      Fair 300 [.heard 0 .busy .modified, .withheld 200, .given 300 (busyBatch .modified),
        .heard 400 .busy .removed, .set 100, .withheld 1000] 1100 (busyBatch .removed) := by
  have hmodified : Past 300 [.heard 0 .busy .modified] 0 ⟨busyBatch .modified, some 0, none, 300⟩ :=
    (Past.new 0).hear_busy le_rfl .changed rfl rfl
  have hfirst := (hmodified.withhold (Nat.zero_le 200) (by decide)).give
    (by decide : 200 ≤ 300) (by decide)
  have hremoved := hfirst.hear_busy (by decide : 300 ≤ 400) .removed rfl rfl
  have hsecond := ((hremoved.setDebounce 100).withhold (by decide : 400 ≤ 1000) (by decide)).give
    (by decide : 1000 ≤ 1100) (by decide)
  exact ⟨_, hsecond, (hsecond.batches_fair.2.1 _ _ _ [] rfl).1⟩

end Debouncer

end ModuleReload
