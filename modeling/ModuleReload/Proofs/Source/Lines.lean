import ModuleReload.Proofs.Source.Spelling
import ModuleReload.Source.Statement

/-!
# Sources after one another

Nothing is left over when a source ends: no bracket is open, and a line end behind it completes the
last statement and begins a fresh one. So what follows on further lines is read as a source of its
own, with its lines counted on (`statements_append_line`).

`Assembly.later` counts on the lines of an assembly and puts complete statements before its own.
Every step respects that (`Assembly.step_later`), since no step looks at either.
-/

namespace ModuleReload.Source

/-! ## Later lines -/

def Statement.later (k : Nat) (s : Statement) : Statement :=
  { s with line := s.line + k }

/-- The error `k` lines further down. Its fault stays the same, and so does the wording of that. -/
def SyntaxError.later (k : Nat) (e : SyntaxError) : SyntaxError :=
  { e with line := e.line + k }

namespace Assembly

variable {k : Nat} {earlier : List Statement}

/-- The assembly `k` lines further down, where `earlier` is already complete. -/
def later (k : Nat) (earlier : List Statement) (a : Assembly) : Assembly where
  complete := a.complete.map (Statement.later k) ++ earlier
  draft := a.draft.later k
  waiting := a.waiting.map fun w ↦ (w.1, w.2 + k)
  fresh := a.fresh

theorem settled_later (a : Assembly) :
    (a.later k earlier).settled = a.settled.map (Statement.later k) ++ earlier := by
  have hdraft : (a.later k earlier).draft.tokens = a.draft.tokens := rfl
  rw [settled, settled, hdraft]
  split <;> rfl

theorem isEmpty_waiting_later (a : Assembly) :
    (a.later k earlier).waiting.isEmpty = a.waiting.isEmpty := by
  simp [later]

theorem step_later (a : Assembly) (line : Nat) (l : Lexeme) :
    (a.later k earlier).step (line + k) l =
      match a.step line l with
      | .ok b => .ok (b.later k earlier)
      | .error e => .error (e.later k) := by
  cases l with
  | blank | carriageReturn | comment | continuation => rfl
  | malformed fault => rfl
  | lineEnd =>
    simp only [step, isEmpty_waiting_later, settled_later]
    split
    · rw [Nat.add_right_comm]
      rfl
    · rfl
  | semicolon =>
    simp only [step, isEmpty_waiting_later, settled_later]
    split <;> rfl
  | token t =>
    cases t with
    | closing b =>
      obtain ⟨complete, draft, waiting, fresh⟩ := a
      cases waiting with
      | nil => rfl
      | cons w waiting =>
        simp only [step, later, List.map_cons]
        split <;> rfl
    | _ => rfl

theorem run_later (a : Assembly) (ls : List (Nat × Lexeme)) :
    (a.later k earlier).run (ls.map fun l ↦ (l.1 + k, l.2)) =
      match a.run ls with
      | .ok b => .ok (b.later k earlier)
      | .error e => .error (e.later k) := by
  induction ls generalizing a with
  | nil => rfl
  | cons l ls ih =>
    rw [List.map_cons]
    simp only [run, List.foldlM_cons] at ih ⊢
    rw [step_later]
    cases a.step l.1 l.2 with
    | error e => rfl
    | ok b => exact ih b

theorem run_append (a : Assembly) (ls ms : List (Nat × Lexeme)) :
    a.run (ls ++ ms) = a.run ls >>= fun b ↦ b.run ms :=
  List.foldlM_append

theorem finish_eq_ok_iff {a : Assembly} {ss : List Statement} :
    a.finish = .ok ss ↔ a.waiting = [] ∧ a.settled.reverse = ss := by
  rw [finish]
  cases a.waiting with
  | nil => simp
  | cons w waiting => simp

theorem finish_later (a : Assembly) :
    (a.later k earlier).finish =
      match a.finish with
      | .ok ss => .ok (earlier.reverse ++ ss.map (Statement.later k))
      | .error e => .error (e.later k) := by
  cases hwaiting : a.waiting with
  | nil =>
    have hlater : (a.later k earlier).waiting = [] := by rw [later, hwaiting, List.map_nil]
    rw [finish_eq_ok_iff.mpr ⟨hlater, rfl⟩, finish_eq_ok_iff.mpr ⟨hwaiting, rfl⟩, settled_later,
      List.reverse_append, ← List.map_reverse]
  | cons w waiting =>
    have hlater :
        (a.later k earlier).waiting = (w.1, w.2 + k) :: (waiting.map fun w ↦ (w.1, w.2 + k)) := by
      rw [later, hwaiting, List.map_cons]
    simp only [finish, hwaiting, hlater]
    rfl

theorem run_cons (a : Assembly) (l : Nat × Lexeme) (ls : List (Nat × Lexeme)) :
    a.run (l :: ls) = a.step l.1 l.2 >>= fun b ↦ b.run ls :=
  List.foldlM_cons

theorem not_malformed_of_run {a b : Assembly} {ls : List (Nat × Lexeme)} (h : a.run ls = .ok b) :
    ∀ l ∈ ls, ∀ fault, l.2 ≠ .malformed fault := by
  induction ls generalizing a with
  | nil => simp
  | cons l ls ih =>
    rw [run_cons] at h
    cases hstep : a.step l.1 l.2 with
    | error e => simp [hstep, bind, Except.bind] at h
    | ok a' =>
      rw [hstep] at h
      refine List.forall_mem_cons.mpr ⟨?_, ih h⟩
      rintro fault hfault
      simp [hfault, step] at hstep

end Assembly

/-! ## Sources -/

theorem statements_eq_ok_iff {source : List Char} {ss : List Statement} :
    statements source = .ok ss ↔
      ∃ a, Assembly.start.run (lexemes 1 (withoutMark source)) = .ok a ∧ a.waiting = [] ∧
        a.settled.reverse = ss := by
  rw [statements]
  cases Assembly.start.run (lexemes 1 (withoutMark source)) with
  | error e => simp
  | ok a => simp [Assembly.finish_eq_ok_iff]

theorem withoutMark_of_head {source : List Char} (h : source.head? ≠ some '\uFEFF') :
    withoutMark source = source := by
  rw [withoutMark.eq_def]
  split
  · simp at h
  · rfl

theorem withoutMark_append {front back : List Char} (h : front ≠ [] ∨ back.head? ≠ some '\uFEFF') :
    withoutMark (front ++ back) = withoutMark front ++ back := by
  cases front with
  | nil => exact withoutMark_of_head (h.resolve_left fun h ↦ h rfl)
  | cons c cs =>
    by_cases hc : c = '\uFEFF'
    · subst hc
      rfl
    · rw [withoutMark_of_head (by simpa using hc), withoutMark_of_head (by simpa using hc)]

theorem count_withoutMark (source : List Char) :
    (withoutMark source).count '\n' = source.count '\n' := by
  rw [withoutMark.eq_def]
  split
  · rw [List.count_cons_of_ne (by decide)]
  · rfl

/-- The line end completes the first source, and the assembly begins anew further down. -/
theorem run_append_line {s₁ s₂ : List Char} {ss₁ : List Statement} (h₁ : statements s₁ = .ok ss₁) :
    Assembly.start.run (lexemes 1 (withoutMark (s₁ ++ '\n' :: s₂))) =
      match Assembly.start.run (lexemes 1 s₂) with
      | .ok b => .ok (b.later (1 + s₁.count '\n') ss₁.reverse)
      | .error e => .error (e.later (1 + s₁.count '\n')) := by
  obtain ⟨a, hrun, hwaiting, rfl⟩ := statements_eq_ok_iff.mp h₁
  obtain ⟨ls, hreads, hlexemes⟩ := exists_reads (Assembly.not_malformed_of_run hrun)
  have hreads' : Reads (withoutMark s₁) ('\n' :: s₂).head? ls :=
    hreads.before (by simpa using (by decide : separates '\n' = true)) (by simp)
  generalize hk : 1 + s₁.count '\n' = k
  have hend : a.step k .lineEnd = .ok (Assembly.start.later k a.settled) := by
    simp only [Assembly.step, hwaiting, List.isEmpty_nil, if_true, Nat.add_comm k 1]
    rfl
  have hline : lexemes k ('\n' :: s₂) =
      (k, .lineEnd) :: (lexemes 1 s₂).map fun l ↦ (l.1 + k, l.2) := by
    rw [← lexemes_add, lexemes, Nat.add_comm 1 k]
    rfl
  rw [withoutMark_append (.inr (by simp)), hreads'.lexemes, ← hlexemes, count_withoutMark, hk,
    hline, Assembly.run_append, hrun, List.reverse_reverse, ← Assembly.run_later]
  show Assembly.run a (_ :: _) = _
  rw [Assembly.run_cons, hend]
  rfl

/-- **Sources may be read one after the other.** What stands on the lines behind a source is read as
a source of its own, with its lines counted on, whether it is accepted or not. -/
theorem statements_append_line {s₁ s₂ : List Char} {ss₁ : List Statement}
    (h₁ : statements s₁ = .ok ss₁) (hmark : s₂.head? ≠ some '\uFEFF') :
    statements (s₁ ++ '\n' :: s₂) =
      match statements s₂ with
      | .ok ss₂ => .ok (ss₁ ++ ss₂.map (Statement.later (1 + s₁.count '\n')))
      | .error e => .error (e.later (1 + s₁.count '\n')) := by
  rw [statements, run_append_line h₁, statements, withoutMark_of_head hmark]
  cases Assembly.start.run (lexemes 1 s₂) with
  | error e => rfl
  | ok b =>
    refine b.finish_later.trans ?_
    rw [List.reverse_reverse]

/-- A literal over two lines, and brackets over two lines behind it. -/
theorem statements_append_line_literal :
    let s₁ := ['\'', '\'', '\'', '\n', '\'', '\'', '\'']
    let s₂ := ['(', '\n', ')']
    statements s₁ = .ok [⟨1, false, false, [.literal "\n"]⟩] ∧ s₂.head? ≠ some '\uFEFF' ∧
      statements (s₁ ++ '\n' :: s₂) = .ok [⟨1, false, false, [.literal "\n"]⟩,
        ⟨3, false, false, [.opening .round, .closing .round]⟩] := by
  intro s₁ s₂
  have hreads₁ : Reads s₁ none [.token (.literal "\n")] :=
    .single (.literal .absent (by decide : isQuote '\'' = true)
      (.block (.cons (by decide) (by decide) .nil)) (by simp))
  have hreads₂ : Reads s₂ none [.token (.opening .round), .lineEnd, .token (.closing .round)] :=
    .cons (.mark (by decide) (by simp)) (.cons (.lineEnd _) (.single (.mark (by decide) (by simp))))
  have h₁ : statements s₁ = .ok [⟨1, false, false, [.literal "\n"]⟩] := by
    rw [statements, show withoutMark s₁ = s₁ from rfl, hreads₁.lexemes_eq]
    rfl
  have h₂ : statements s₂ = .ok [⟨1, false, false, [.opening .round, .closing .round]⟩] := by
    rw [statements, show withoutMark s₂ = s₂ from rfl, hreads₂.lexemes_eq]
    rfl
  have hmark : s₂.head? ≠ some '\uFEFF' := by decide
  refine ⟨h₁, hmark, ?_⟩
  rw [statements_append_line h₁ hmark, h₂]
  rfl

end ModuleReload.Source
