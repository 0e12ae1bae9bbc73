import Mathlib.Data.List.Induction
import ModuleReload.Watch.Debouncer

/-!
# What is pending for a file

A debouncer keeps one change a file. What it keeps for a file is the fold of `Change.after` over the
changes of that file alone, in the order in which they were heard, whatever is heard of other files
in between (`Debouncer.get?_noteAll`, `Debouncer.get?_hearAll`).

Folding loses something: the one change that is kept does not say whether the file was there to
begin with. For changes that fit together (`Change.presence`: nothing is created where something is,
nor changed or removed where nothing is) the fold comes out as `Change.kept` says. That is the net
effect on the file with one exception: a file that was there, was created anew on the way, and is
gone at the end (`Debouncer.tells_hearAll_iff`). There it is taken for a file that came and went,
and nothing is pending.
-/

namespace ModuleReload

/-! ## Changes of one file -/

namespace Change

/-- Whether a file is there after a change of it, by whether it was there before. Nothing can be
created where something is, nor modified or removed where nothing is. -/
def leaves : Bool → Change → Option Bool
  | false, created => some true
  | true, modified => some true
  | true, removed => some false
  | _, _ => none

/-- Whether a file is there after changes of it in turn; none if they do not fit together. -/
def presence (existed : Bool) (cs : List Change) : Option Bool :=
  cs.foldlM leaves existed

/-- What is pending for a file after changes of it in turn. -/
def afterAll (pending : Option Change) (cs : List Change) : Option Change :=
  cs.foldl after pending

/-- The changes of one file among those of all files. -/
def ofPath (p : Path) (changes : List (Path × Change)) : List Change :=
  (changes.filter (·.1 = p)).map Prod.snd

/-- That what is pending tells the net effect of changes on a file, by whether it was there before
them and whether it is there after them. -/
def Tells (cs : List Change) : (existed present : Bool) → Option Change → Prop
  | true, false, pending => pending = some removed
  | true, true, pending =>
    if cs = [] then pending = none else pending = some created ∨ pending = some modified
  | false, true, pending => pending = some created
  | false, false, pending => pending = none

/-- What a debouncer keeps of changes that fit together. -/
def kept (cs : List Change) (existed present : Bool) : Option Change :=
  if existed = true ∧ created ∉ cs then
    if present then if cs = [] then none else some modified
    else some removed
  else if present then some created else none

variable {cs : List Change} {existed present : Bool} {p q : Path} {c : Change}
  {changes more : List (Path × Change)}

theorem ofPath_cons_self : ofPath p ((p, c) :: changes) = c :: ofPath p changes := by
  simp [ofPath]

theorem ofPath_cons_of_ne (h : q ≠ p) : ofPath p ((q, c) :: changes) = ofPath p changes := by
  simp [ofPath, h]

theorem ofPath_append : ofPath p (changes ++ more) = ofPath p changes ++ ofPath p more := by
  simp [ofPath]

theorem afterAll_append (pending : Option Change) (cs ds : List Change) :
    afterAll pending (cs ++ ds) = afterAll (afterAll pending cs) ds :=
  List.foldl_append

theorem presence_append_singleton :
    presence existed (cs ++ [c]) = (presence existed cs).bind (leaves · c) := by
  simp [presence]

/-- One more change that fits turns what is kept into what is kept after it. What is there no more
has been changed at least once if it was there to begin with. -/
theorem after_kept {before : Bool} (hbefore : presence existed cs = some before)
    (hleaves : leaves before c = some present) :
    c.after (kept cs existed before) = kept (cs ++ [c]) existed present := by
  have hnil : cs = [] → existed = before := by
    rintro rfl
    simpa [presence] using hbefore
  cases c <;> cases before <;> cases present <;>
    simp only [leaves, reduceCtorEq, Option.some.injEq] at hleaves
  case created.false.true =>
    cases existed <;> by_cases hcreated : created ∈ cs <;> simp_all [kept, after]
  case modified.true.true | removed.true.false =>
    cases existed <;> by_cases hcreated : created ∈ cs <;> by_cases hcs : cs = [] <;>
      simp_all [kept, after]

theorem afterAll_eq_kept (h : presence existed cs = some present) :
    afterAll none cs = kept cs existed present := by
  induction cs using List.reverseRecOn generalizing present with
  | nil =>
    obtain rfl : existed = present := by simpa [presence] using h
    cases existed <;> rfl
  | append_singleton cs c ih =>
    rw [presence_append_singleton] at h
    obtain ⟨before, hbefore, hleaves⟩ := Option.bind_eq_some_iff.mp h
    calc afterAll none (cs ++ [c]) = c.after (afterAll none cs) := afterAll_append _ _ _
      _ = c.after (kept cs existed before) := by rw [ih hbefore]
      _ = kept (cs ++ [c]) existed present := after_kept hbefore hleaves

/-- What is kept is the net effect, except for a file that was there, was created anew and is
gone. -/
theorem tells_kept_iff (h : presence existed cs = some present) :
    Tells cs existed present (kept cs existed present) ↔
      ¬(existed = true ∧ present = false ∧ created ∈ cs) := by
  cases existed <;> cases present <;> by_cases hcreated : created ∈ cs <;>
    by_cases hnil : cs = [] <;> simp_all [Tells, kept]

end Change

/-! ## Files side by side -/

/-- A signal, and the files and the time at which it is heard. -/
structure Hearing where
  files : FileSystem
  time : Milliseconds
  signal : Signal

/-- The changes that signals tell of, in the order in which they are heard. -/
def Hearing.changes (hearings : List Hearing) : List (Path × Change) :=
  hearings.flatMap fun h ↦ h.signal.changes h.files

namespace Debouncer

variable {now : Milliseconds} {d : Debouncer} {p q : Path} {c : Change}

def hearAll (hearings : List Hearing) (d : Debouncer) : Debouncer :=
  hearings.foldl (fun d h ↦ (d.hear h.files h.time h.signal).1) d

/-- A change is put on top of what is pending for its file, and what is pending for other files
stays. -/
theorem get?_note :
    (d.note now p c).1.pending.get? q =
      if q = p then c.after (d.pending.get? p) else d.pending.get? q := by
  rw [note]
  split
  case isTrue hsame =>
    split
    case isTrue hq => rw [hq, hsame]
    case isFalse => rfl
  case isFalse => exact PendingChanges.get?_set _ _ _ _

theorem get?_noteAll (changes : List (Path × Change)) :
    (noteAll now d changes).1.pending.get? p =
      Change.afterAll (d.pending.get? p) (Change.ofPath p changes) := by
  induction changes generalizing d with
  | nil => rfl
  | cons head changes ih =>
    obtain ⟨q, c⟩ := head
    have hnote : (d.note now q c).1.pending.get? p =
        if p = q then c.after (d.pending.get? q) else d.pending.get? p := get?_note
    rw [noteAll, ih, hnote]
    by_cases hq : q = p
    · subst hq
      rw [if_pos rfl, Change.ofPath_cons_self]
      rfl
    · rw [if_neg (Ne.symm hq), Change.ofPath_cons_of_ne hq]

/-- Of all that is heard, what is pending for a file shows the changes of that file. -/
theorem get?_hearAll (hearings : List Hearing) :
    (d.hearAll hearings).pending.get? p =
      Change.afterAll (d.pending.get? p) (Change.ofPath p (Hearing.changes hearings)) := by
  induction hearings generalizing d with
  | nil => rfl
  | cons h hearings ih =>
    have hhead : (d.hear h.files h.time h.signal).1.pending.get? p =
        Change.afterAll (d.pending.get? p) (Change.ofPath p (h.signal.changes h.files)) :=
      get?_noteAll _
    rw [hearAll, List.foldl_cons, ← hearAll, ih, hhead, ← Change.afterAll_append,
      ← Change.ofPath_append]
    rfl

/-- **What is pending for a file after signals that fit together.** If nothing was pending for it,
then `Change.kept` is, and that tells the net effect on the file unless it was there, was created
anew and is gone. -/
theorem tells_hearAll_iff (hearings : List Hearing) {existed present : Bool}
    (hnone : d.pending.get? p = none)
    (hfit : Change.presence existed (Change.ofPath p (Hearing.changes hearings)) = some present) :
    let cs := Change.ofPath p (Hearing.changes hearings)
    (d.hearAll hearings).pending.get? p = Change.kept cs existed present ∧
      (Change.Tells cs existed present ((d.hearAll hearings).pending.get? p) ↔
        ¬(existed = true ∧ present = false ∧ .created ∈ cs)) := by
  intro cs
  have hkept : (d.hearAll hearings).pending.get? p = Change.kept cs existed present := by
    rw [get?_hearAll, hnone, Change.afterAll_eq_kept hfit]
  exact ⟨hkept, hkept ▸ Change.tells_kept_iff hfit⟩

end Debouncer

/-! ## A removal that is not told -/

/-- A file that is changed often. -/
def Path.busy : Path := ⟨true, ["w", "a.py"]⟩

/-- The signals of its removal, its creation and its removal. -/
def Hearing.vanishing : List Hearing :=
  [⟨.empty, 0, .removed, [.busy]⟩, ⟨.empty, 5, .created, [.busy]⟩,
    ⟨.empty, 9, .removed, [.busy]⟩]

theorem FileSystem.normalize_busy : empty.normalize .busy = .busy := by
  decide

theorem Signal.changes_busy {kind : SignalKind} {c : Change}
    (hc : change? .empty .busy kind = some c) :
    (Signal.mk kind [.busy]).changes .empty = [(.busy, c)] := by
  have htemporary : isTemporary .busy = false := by decide +kernel
  simp [changes, htemporary, hc, FileSystem.normalize_busy]

theorem Hearing.ofPath_vanishing :
    Change.ofPath .busy (changes vanishing) = [.removed, .created, .removed] := by
  have hremoved : (Signal.mk .removed [.busy]).changes .empty = [(.busy, .removed)] :=
    Signal.changes_busy rfl
  have hcreated : (Signal.mk .created [.busy]).changes .empty = [(.busy, .created)] :=
    Signal.changes_busy rfl
  simp [changes, vanishing, hremoved, hcreated, Change.ofPath]

/-- A file that was there is removed, created and removed again: nothing is pending for it, though
it is gone. -/
theorem Debouncer.untold_removal :
    (Debouncer.new 300).pending.get? .busy = none ∧
      Change.presence true (Change.ofPath .busy (Hearing.changes Hearing.vanishing)) = some false ∧
      ((Debouncer.new 300).hearAll Hearing.vanishing).pending.get? .busy = none ∧
      ¬Change.Tells (Change.ofPath .busy (Hearing.changes Hearing.vanishing)) true false
        (((Debouncer.new 300).hearAll Hearing.vanishing).pending.get? .busy) := by
  have hfit : Change.presence true (Change.ofPath .busy (Hearing.changes Hearing.vanishing)) =
      some false := by
    rw [Hearing.ofPath_vanishing]
    rfl
  obtain ⟨hkept, htells⟩ := Debouncer.tells_hearAll_iff (d := .new 300) Hearing.vanishing rfl hfit
  refine ⟨rfl, hfit, ?_, ?_⟩
  · rw [hkept, Hearing.ofPath_vanishing]
    rfl
  · rw [htells, Hearing.ofPath_vanishing]
    decide

end ModuleReload
