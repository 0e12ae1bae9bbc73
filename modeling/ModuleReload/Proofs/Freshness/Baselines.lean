import Mathlib.Data.List.DropRight
import ModuleReload.Proofs.Engine.Sight

/-!
# Baselines over a history

What happens to baselines is told by a history of events, the latest at its end. Each look has the
file system of its moment, and those of two moments have nothing to do with each other: files may be
changed, removed and put back in any way in between.

The baseline of a path is read off the history, without the table (`Baselines.baselineIn?`): since
the path was last forgotten, it is what the last look at it read, or else what a merge first brought
for it. The two agree at all times, because each event does the same to both
(`Baselines.lastSeen?_after`, `Baselines.baselineIn?_concat`). So a look reports a change exactly if
it reads a later time (`Baselines.observe_afterAll_iff`).
-/

namespace ModuleReload.Baselines

open FileSystem

/-! ## Events -/

/-- What happens to baselines. -/
inductive Event
  /-- A path is looked at, to see whether it has changed. -/
  | observe (fs : FileSystem) (p : Path)
  /-- A path is looked at, whether it has changed or not. -/
  | refresh (fs : FileSystem) (p : Path)
  /-- The baseline of a path is given up. -/
  | forget (p : Path)
  /-- The baselines of another table come in. -/
  | merge (c : Baselines)

namespace Event

variable (p : Path)

/-- Whether the event is about a path, however that is spelled. Merging is about all paths. -/
def concerns : Event → Bool
  | observe _ q | refresh _ q | forget q => q.same p
  | merge _ => true

/-- Whether the baseline of a path is given up. -/
def forgets : Event → Bool
  | forget q => q.same p
  | _ => false

/-- What a look at a path read, if it could be read. -/
def read? : Event → Option Instant
  | observe fs q | refresh fs q => if q.same p then fs.modified? q else none
  | _ => none

/-- What a merge brought for a path. -/
def brought? : Event → Option Instant
  | merge c => c.lastSeen? p
  | _ => none

end Event

def after (b : Baselines) : Event → Baselines
  | .observe fs p => (b.observe fs p).2
  | .refresh fs p => b.refresh fs p
  | .forget p => b.forget p
  | .merge c => b.merge c

def afterAll (b : Baselines) (history : List Event) : Baselines :=
  history.foldl after b

/-! ## The baseline by the history -/

/-- What happened since a path was last forgotten. -/
def sinceForgotten (history : List Event) (p : Path) : List Event :=
  history.rtakeWhile fun e ↦ !e.forgets p

/-- The baseline of a path by a history: what the last look at it read, or else what a merge first
brought for it, since it was last forgotten. -/
def baselineIn? (history : List Event) (p : Path) : Option Instant :=
  ((sinceForgotten history p).filterMap (Event.read? p)).getLast?.or
    ((sinceForgotten history p).filterMap (Event.brought? p)).head?

variable {b : Baselines} {history : List Event} {e : Event} {p : Path}

theorem sinceForgotten_concat :
    sinceForgotten (history ++ [e]) p = if e.forgets p then [] else sinceForgotten history p ++
      [e] := by
  rw [sinceForgotten, List.rtakeWhile_concat]
  cases h : e.forgets p <;> simp [sinceForgotten]

/-- What is read replaces the baseline, and what is brought only fills in for it. -/
theorem baselineIn?_concat :
    baselineIn? (history ++ [e]) p =
      if e.forgets p then none else (e.read? p).or ((baselineIn? history p).or (e.brought? p)) := by
  rw [baselineIn?, sinceForgotten_concat]
  split
  case isTrue => rfl
  case isFalse =>
    -- Of looks the last one counts, of merges the first one.
    have hread : ((sinceForgotten history p ++ [e]).filterMap (Event.read? p)).getLast? =
        (e.read? p).or ((sinceForgotten history p).filterMap (Event.read? p)).getLast? := by
      rw [List.filterMap_append, List.getLast?_append]
      cases h : e.read? p <;> simp [h]
    have hbrought : ((sinceForgotten history p ++ [e]).filterMap (Event.brought? p)).head? =
        ((sinceForgotten history p).filterMap (Event.brought? p)).head?.or (e.brought? p) := by
      rw [List.filterMap_append, List.head?_append]
      cases h : e.brought? p <;> simp [h]
    rw [hread, hbrought, baselineIn?, Option.or_assoc, Option.or_assoc]

/-! ## The baseline in the table -/

theorem lastSeen?_refresh_eq (fs : FileSystem) (b : Baselines) (q p : Path) :
    (b.refresh fs q).lastSeen? p =
      (if q.same p then fs.modified? q else none).or (b.lastSeen? p) := by
  by_cases hsame : q.components = p.components
  · cases hq : fs.modified? q with
    | none => simp [refresh, hq]
    | some t => simp [lastSeen?_refresh hq, Path.same, hsame]
  · rw [lastSeen?_refresh_of_ne (Ne.symm hsame)]
    simp [Path.same, hsame]

/-- An event does to the baseline in the table what it does to the one by the history. -/
theorem lastSeen?_after (b : Baselines) (e : Event) (p : Path) :
    (b.after e).lastSeen? p =
      if e.forgets p then none else (e.read? p).or ((b.lastSeen? p).or (e.brought? p)) := by
  cases e with
  | observe fs q | refresh fs q =>
    simp only [Event.forgets, Event.brought?, Bool.false_eq_true, if_false, Option.or_none]
    exact lastSeen?_refresh_eq fs b q p
  | forget q =>
    have hforget :
        (b.forget q).lastSeen? p = if p.components = q.components then none else b.lastSeen? p :=
      Table.get?_erase _ _ _
    have hsame : q.same p = true ↔ p.components = q.components := beq_iff_eq.trans eq_comm
    simp only [after, hforget, Event.forgets, Event.read?, Event.brought?, hsame, Option.or_none,
      Option.none_or]
  | merge c => exact Table.get?_merge _ _ _

theorem lastSeen?_afterAll (history : List Event) (p : Path) :
    (empty.afterAll history).lastSeen? p = baselineIn? history p := by
  induction history using List.reverseRecOn with
  | nil => rfl
  | append_singleton history e ih =>
    rw [afterAll, List.foldl_append, baselineIn?_concat, ← ih]
    exact lastSeen?_after _ e p

/-! ## Paths side by side -/

theorem baselineIn?_concat_of_not_concerns (h : e.concerns p = false) :
    baselineIn? (history ++ [e]) p = baselineIn? history p := by
  rw [baselineIn?_concat]
  cases e <;> simp_all [Event.concerns, Event.forgets, Event.read?, Event.brought?]

theorem baselineIn?_filter (history : List Event) (p : Path) :
    baselineIn? (history.filter (Event.concerns p)) p = baselineIn? history p := by
  induction history using List.reverseRecOn with
  | nil => rfl
  | append_singleton history e ih =>
    rw [List.filter_append]
    cases h : e.concerns p with
    | true =>
      rw [List.filter_cons_of_pos h, List.filter_nil, baselineIn?_concat, baselineIn?_concat, ih]
    | false =>
      rw [List.filter_cons_of_neg (by simp [h]), List.filter_nil, List.append_nil, ih,
        baselineIn?_concat_of_not_concerns h]

/-! ## Changes -/

/-- **A look reports what changed since the look before it.** After any history, a look at a path
reports a change if and only if the path can be read and has a later time than the last look at it
read, since it was last forgotten, or where no look did, than a merge first brought for it since
then. What happened to other paths does not matter. -/
theorem observe_afterAll_iff (history : List Event) (fs : FileSystem) (p : Path) :
    (((empty.afterAll history).observe fs p).1 = true ↔
        ∃ before now, baselineIn? history p = some before ∧ fs.modified? p = some now ∧
        before < now) ∧
      ((empty.afterAll (history.filter (Event.concerns p))).observe fs p).1 =
        ((empty.afterAll history).observe fs p).1 := by
  constructor
  · rw [← lastSeen?_afterAll]
    exact isNewer_iff
  · show isNewer _ _ _ = isNewer _ _ _
    rw [isNewer, isNewer, lastSeen?_afterAll, lastSeen?_afterAll, baselineIn?_filter]

end ModuleReload.Baselines
