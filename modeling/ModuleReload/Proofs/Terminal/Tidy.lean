import Mathlib.Data.List.Infix
import ModuleReload.Terminal.Basic

/-!
# Blocks that replace blocks

A status block that moves up erases all that stands below the place it moves to. A terminal is
*tidy* if every block that did so has erased exactly the block before it (`Terminal.Tidy`): it moved
up by as many lines as that block has, and nothing was written after it.

What a block erases is decided by the height that the terminal remembers. That is the number of
lines of the last block (`Status.lineEnds_text`), so the next block is right exactly if nothing was
written since, and the cursor can move that far (`Terminal.tidy_report_iff`).
-/

namespace ModuleReload

/-! ## Lines of a block -/

/-- The number of lines that a text ends. -/
def lineEnds (s : String) : Nat :=
  s.toList.count '\n'

theorem lineEnds_append (s s' : String) : lineEnds (s ++ s') = lineEnds s + lineEnds s' := by
  rw [lineEnds, String.toList_append, List.count_append, lineEnds, lineEnds]

theorem lineEnds_repr (n : Nat) : lineEnds n.repr = 0 := by
  rw [lineEnds, Nat.toList_repr, List.count_eq_zero]
  intro hmem
  exact absurd (Nat.isDigit_of_mem_toDigits (by decide) (by decide) hmem) (by decide)

theorem Notice.lineEnds_style (code : Nat) : lineEnds (style code) = 0 := by
  have hstyle : style code = "\x1b[" ++ code.repr ++ "m" := rfl
  rw [hstyle, lineEnds_append, lineEnds_append, lineEnds_repr]
  decide

theorem TimeOfDay.lineEnds_twoDigits (n : Nat) : lineEnds (twoDigits n) = 0 := by
  have htwo : twoDigits n = (n / 10).repr ++ (n % 10).repr := by simp [twoDigits]
  rw [htwo, lineEnds_append, lineEnds_repr, lineEnds_repr]

theorem TimeOfDay.lineEnds_text (time : TimeOfDay) : lineEnds time.text = 0 := by
  have hcolon : lineEnds ":" = 0 := by decide
  simp only [text, lineEnds_append, lineEnds_twoDigits, hcolon]

namespace Status

theorem lineEnds_dimmed (s : String) : lineEnds (dimmed s) = lineEnds s := by
  simp only [dimmed, lineEnds_append, Notice.lineEnds_style, Nat.zero_add, Nat.add_zero]

theorem lineEnds_coloured (colour : Nat) (s : String) :
    lineEnds (coloured colour s) = lineEnds s := by
  simp only [coloured, lineEnds_append, Notice.lineEnds_style, Nat.zero_add, Nat.add_zero]

theorem lineEnds_marked (s : Status) : lineEnds s.marked = lineEnds s.message := by
  have htick : lineEnds "✓" = 0 := by decide
  have hcross : lineEnds "✗" = 0 := by decide
  have hspace : lineEnds " " = 0 := by decide
  cases s <;> simp only [marked, lineEnds_append, lineEnds_dimmed, lineEnds_coloured, htick, hcross,
    hspace, Nat.zero_add]

/-- **The height of a block is the number of its lines.** -/
theorem lineEnds_text (time : TimeOfDay) (s : Status) : lineEnds (s.text time) = s.height := by
  have hopen : lineEnds "[" = 0 := by decide
  have hclose : lineEnds "]" = 0 := by decide
  have hspace : lineEnds " " = 0 := by decide
  have hend : lineEnds "\n" = 1 := by decide
  simp only [text, lineEnds_append, lineEnds_dimmed, lineEnds_marked, TimeOfDay.lineEnds_text,
    hopen, hclose, hspace, hend, Nat.zero_add, Nat.add_zero]
  rfl

end Status

/-! ## Tidy writings -/

namespace Writing

/-- That a writing which moves up erases the writing before it and nothing else, and that this is a
block. -/
def Fits (before : List Writing) : Writing → Prop
  | line _ => True
  | block none _ _ => True
  | block (some n) _ _ => ∃ earlier erased time s,
      before = earlier ++ [block erased time s] ∧ n = lineEnds (s.text time)

/-- That each of some writings fits those before it. -/
def Tidy (ws : List Writing) : Prop :=
  ∀ before w, before ++ [w] <+: ws → w.Fits before

theorem tidy_nil : Tidy [] := by
  intro before w hmoment
  simp at hmoment

theorem tidy_concat_iff {ws : List Writing} {w : Writing} :
    Tidy (ws ++ [w]) ↔ Tidy ws ∧ w.Fits ws := by
  constructor
  · intro h
    exact ⟨fun before v hv ↦ h before v (hv.trans (List.prefix_append _ _)), h ws w List.prefix_rfl⟩
  · rintro ⟨hws, hw⟩ before v hv
    rcases List.prefix_concat_iff.mp hv with heq | hv
    · obtain ⟨rfl, hvw⟩ := List.append_inj' heq rfl
      obtain rfl := List.singleton_injective hvw
      exact hw
    · exact hws before v hv

theorem tidy_append_lines_iff {ws : List Writing} {ns : List Notice} :
    Tidy (ws ++ ns.map line) ↔ Tidy ws := by
  induction ns generalizing ws with
  | nil => rw [List.map_nil, List.append_nil]
  | cons n ns ih =>
    have hcons : ws ++ (n :: ns).map line = (ws ++ [line n]) ++ ns.map line := by simp
    rw [hcons, ih, tidy_concat_iff]
    exact and_iff_left trivial

end Writing

namespace Terminal

variable {t t' : Terminal} {ns : List Notice} {time : TimeOfDay} {s : Status}

/-- That every block that has moved up has erased the block before it and nothing else. -/
def Tidy (t : Terminal) : Prop :=
  Writing.Tidy t.written

/-- That the next block starts below what is written, or the last writing is a block of the height
that is remembered. -/
def Anchored (t : Terminal) : Prop :=
  t.height = 0 ∨ ∃ earlier erased time s, t.written = earlier ++ [.block erased time s] ∧
    t.height = lineEnds (s.text time)

/-- That nothing but lines has been written since. -/
def Lines (t t' : Terminal) : Prop :=
  ∃ ns : List Notice, t'.written = t.written ++ ns.map .line

theorem Lines.refl (t : Terminal) : t.Lines t :=
  ⟨[], by simp⟩

theorem Lines.trans {t'' : Terminal} (h : t.Lines t') (h' : t'.Lines t'') : t.Lines t'' := by
  obtain ⟨ns, hns⟩ := h
  obtain ⟨ns', hns'⟩ := h'
  exact ⟨ns ++ ns', by rw [hns', hns, List.map_append, List.append_assoc]⟩

theorem lines_log (t : Terminal) (ns : List Notice) : t.Lines (t.log ns) :=
  ⟨_, rfl⟩

theorem Lines.tidy_iff (h : t.Lines t') : t'.Tidy ↔ t.Tidy := by
  obtain ⟨ns, hns⟩ := h
  rw [Tidy, hns, Writing.tidy_append_lines_iff, Tidy]

theorem log_log (t : Terminal) (ns ns' : List Notice) : (t.log ns).log ns' = t.log (ns ++ ns') := by
  simp [log]

theorem log_nil (t : Terminal) : t.log [] = t := by
  simp [log]

theorem tidy_report_iff_of_height (h : t.Lines t') (hzero : t'.height = 0) :
    (t'.report time s).Tidy ↔ t.Tidy := by
  have herased : t'.erased = none := if_pos hzero
  rw [Tidy, report, Writing.tidy_concat_iff, ← Tidy, h.tidy_iff, herased]
  exact and_iff_left trivial

theorem anchored_report : (t.report time s).Anchored :=
  .inr ⟨t.written, t.erased, time, s, rfl, (s.lineEnds_text time).symm⟩

/-- After lines alone, a block fits if it does not move up, or if there are no lines and the cursor
moves as far as the last block is high. -/
theorem tidy_report_iff (ht : t.Anchored) (hwritten : t'.written = t.written ++ ns.map .line)
    (hheight : t'.height ≠ 0 → t'.height = t.height) :
    (t'.report time s).Tidy ↔ t.Tidy ∧ (t'.height ≠ 0 → ns = [] ∧ t'.height < cursorRange) := by
  by_cases hzero : t'.height = 0
  · rw [tidy_report_iff_of_height ⟨ns, hwritten⟩ hzero]
    exact (and_iff_left fun hne ↦ absurd hzero hne).symm
  rw [Tidy, report, Writing.tidy_concat_iff, hwritten, Writing.tidy_append_lines_iff, ← Tidy]
  refine and_congr_right fun _ ↦ ?_
  have hsame := hheight hzero
  obtain hnone | ⟨earlier, erased, time', s', hlast, hlines⟩ := ht
  · exact absurd (hsame.trans hnone) hzero
  have herased : t'.erased = some (t'.height % cursorRange) := if_neg hzero
  rw [herased, hlast]
  constructor
  · rintro ⟨earlier', erased', time'', s'', hwhole, hn⟩ -
    rcases List.eq_nil_or_concat ns with rfl | ⟨ns, n, rfl⟩
    · rw [List.map_nil, List.append_nil] at hwhole
      obtain ⟨-, hblock⟩ := List.append_inj' hwhole rfl
      obtain ⟨-, rfl, rfl⟩ := Writing.block.inj (List.singleton_injective hblock)
      refine ⟨rfl, ?_⟩
      rw [hsame, hlines, ← hn]
      exact Nat.mod_lt _ (by decide)
    · rw [List.concat_eq_append, List.map_append, ← List.append_assoc] at hwhole
      obtain ⟨-, hblock⟩ := List.append_inj' hwhole rfl
      exact absurd (List.singleton_injective hblock) (by simp)
  · intro h
    obtain ⟨rfl, hlt⟩ := h hzero
    refine ⟨earlier, erased, time', s', by simp, ?_⟩
    rw [Nat.mod_eq_of_lt hlt, hsame, hlines]

end Terminal

end ModuleReload
