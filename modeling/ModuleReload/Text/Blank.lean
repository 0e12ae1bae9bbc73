/-!
# Blank characters

The characters with the *white space* property of the character database: the six ASCII ones with
the vertical tab and the form feed, the next-line and no-break spaces, and the wide and thin spaces
of typesetting. Core's `Char.isWhitespace` knows four of them. The rest of this module is trimming
at the ends of a text, which is by this class everywhere in the library.
-/

namespace ModuleReload.Text

/-- A character of the white space property. -/
def isBlank (c : Char) : Bool :=
  let n := c.toNat
  (9 ≤ n && n ≤ 13) || n == 0x20 || n == 0x85 || n == 0xA0 || n == 0x1680 ||
    (0x2000 ≤ n && n ≤ 0x200A) || n == 0x2028 || n == 0x2029 || n == 0x202F || n == 0x205F ||
    n == 0x3000

/-! ## Trimming -/

/-- A text without the blanks at its end. -/
def trimEnd : List Char → List Char
  | [] => []
  | c :: cs =>
    match trimEnd cs with
    | [] => if isBlank c then [] else [c]
    | rest => c :: rest

def trim (cs : List Char) : List Char :=
  trimEnd (cs.dropWhile isBlank)

theorem trimEnd_append_blanks (cs : List Char) :
    ∃ blanks, cs = trimEnd cs ++ blanks ∧ ∀ c ∈ blanks, isBlank c = true := by
  induction cs with
  | nil => exact ⟨[], rfl, by simp⟩
  | cons c cs ih =>
    obtain ⟨blanks, hcs, hall⟩ := ih
    rw [trimEnd]
    cases h : trimEnd cs with
    | nil =>
      rw [h, List.nil_append] at hcs
      by_cases hc : isBlank c = true
      · exact ⟨c :: blanks, by simp [hc, hcs], by simp [hc]; simpa using hall⟩
      · exact ⟨blanks, by simp [hc, hcs], hall⟩
    | cons d ds => exact ⟨blanks, by rw [h] at hcs; simpa using hcs, hall⟩

/-- Trimming looks at the front of a text only if there is nothing but blanks behind it. -/
theorem trimEnd_append (front back : List Char) :
    trimEnd (front ++ back) = if trimEnd back = [] then trimEnd front else front ++
      trimEnd back := by
  induction front with
  | nil => simp [trimEnd]
  | cons c cs ih =>
    rw [List.cons_append, trimEnd, ih]
    by_cases h : trimEnd back = []
    · rw [if_pos h, if_pos h, trimEnd]
    · obtain ⟨d, ds, hds⟩ := List.exists_cons_of_ne_nil (List.append_ne_nil_of_right_ne_nil cs h)
      rw [if_neg h, if_neg h, List.cons_append, hds]

theorem trimEnd_cons_of_not_isBlank {c : Char} (hc : isBlank c = false) (cs : List Char) :
    trimEnd (c :: cs) = c :: trimEnd cs := by
  rw [trimEnd]
  split
  · next h => simp [hc, h]
  · rfl

theorem trimEnd_append_cons {c : Char} (hc : isBlank c = false) (front back : List Char) :
    trimEnd (front ++ c :: back) = front ++ c :: trimEnd back := by
  rw [trimEnd_append, trimEnd_cons_of_not_isBlank hc, if_neg (List.cons_ne_nil _ _)]

theorem trimEnd_eq_nil_iff {cs : List Char} : trimEnd cs = [] ↔ ∀ c ∈ cs, isBlank c = true := by
  constructor
  · intro h
    obtain ⟨blanks, hcs, hblanks⟩ := trimEnd_append_blanks cs
    rw [h, List.nil_append] at hcs
    exact hcs ▸ hblanks
  · intro h
    induction cs with
    | nil => rfl
    | cons c cs ih =>
      rw [trimEnd, ih fun d hd ↦ h d (List.mem_cons_of_mem _ hd)]
      exact if_pos (h c List.mem_cons_self)

theorem trimEnd_trimEnd (cs : List Char) : trimEnd (trimEnd cs) = trimEnd cs := by
  obtain ⟨blanks, hcs, hblanks⟩ := trimEnd_append_blanks cs
  have h := congrArg trimEnd hcs
  rw [trimEnd_append, if_pos (trimEnd_eq_nil_iff.mpr hblanks)] at h
  exact h.symm

theorem mem_of_mem_trimEnd {c : Char} {cs : List Char} (h : c ∈ trimEnd cs) : c ∈ cs := by
  obtain ⟨blanks, hcs, -⟩ := trimEnd_append_blanks cs
  exact hcs ▸ List.mem_append_left _ h

theorem head?_trimEnd {cs : List Char} (h : trimEnd cs ≠ []) : (trimEnd cs).head? = cs.head? := by
  obtain ⟨blanks, hcs, -⟩ := trimEnd_append_blanks cs
  obtain ⟨d, ds, hds⟩ := List.exists_cons_of_ne_nil h
  rw [hds] at hcs ⊢
  exact (congrArg List.head? hcs).symm

end ModuleReload.Text
