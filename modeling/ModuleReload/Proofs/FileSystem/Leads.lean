import ModuleReload.FileSystem.Normal

/-!
# Where walks lead

A walk that does not fail comes to something, or to a place where something could be, by a way that
`Leads` describes piece by piece: pieces that stay, pieces that go up, names of what is no link, and
links, after each of which there is one fewer to follow. What holds along such a way is shown by
induction on it.
-/

namespace ModuleReload.FileSystem

open ModuleReload.Path

variable {fs : FileSystem} {links : Nat} {here : Position} {l : Location} {p : Bytes}
  {ps : List Bytes} {goal : Goal} {target : Path} {e : Entry}

/-! ## Steps -/

@[simp]
theorem walk_nil : fs.walk links here [] = .ok (.found here) := by
  cases links <;> rfl

theorem walk_cons : fs.walk links here (p :: ps) =
    if fs.isDirectoryAt here = false then .error .notDirectory
    else if p = "" ∨ p = "." then fs.walk links here ps
    else if p = ".." then fs.walk links here.outer ps
    else match here with
      | .removed _ => .error .notFound
      | .present l =>
        if nameLimit < p.length then .error .nameTooLong
        else match fs.entry? (l ++ [p]) with
          | none => if ps.isEmpty then .ok (.vacant (l ++ [p])) else .error .notFound
          | some (.link target) =>
            if links = 0 then .error .tooManyLinks
            else fs.walk (links - 1) (if target.rooted then .root else here) (target.pieces ++ ps)
          | some _ => fs.walk links (.present (l ++ [p])) ps := by
  cases links <;> rfl

theorem not_isDots_iff : isDots p = false ↔ ¬(p = "" ∨ p = ".") ∧ p ≠ ".." := by
  rw [isDots, decide_eq_false_iff_not, ← or_assoc, not_or]

theorem walk_name (hdir : fs.isDirectoryAt (.present l) = true) (hp : isDots p = false)
    (hlength : p.length ≤ nameLimit) :
    fs.walk links (.present l) (p :: ps) = match fs.entry? (l ++ [p]) with
      | none => if ps.isEmpty then .ok (.vacant (l ++ [p])) else .error .notFound
      | some (.link target) =>
        if links = 0 then .error .tooManyLinks
        else fs.walk (links - 1) (if target.rooted then .root else .present l) (target.pieces ++ ps)
      | some _ => fs.walk links (.present (l ++ [p])) ps := by
  obtain ⟨hdot, hup⟩ := not_isDots_iff.mp hp
  rw [walk_cons, if_neg (by simp [hdir]), if_neg hdot, if_neg hup]
  simp only [if_neg (Nat.not_lt.mpr hlength)]

/-! ## Ways -/

/-- There is a way from a position along pieces of a path, with at most `links` links. -/
inductive Leads (fs : FileSystem) : Nat → Position → List Bytes → Goal → Prop
  | here {links : Nat} {here : Position} : Leads fs links here [] (.found here)
  /-- An empty piece or a dot. -/
  | stay {links : Nat} {here : Position} {p : Bytes} {ps : List Bytes} {goal : Goal}
      (hdir : fs.isDirectoryAt here = true) (hp : p = "" ∨ p = ".")
      (h : Leads fs links here ps goal) :
      Leads fs links here (p :: ps) goal
  | up {links : Nat} {here : Position} {ps : List Bytes} {goal : Goal}
      (hdir : fs.isDirectoryAt here = true) (h : Leads fs links here.outer ps goal) :
      Leads fs links here (".." :: ps) goal
  | vacant {links : Nat} {l : Location} {p : Bytes} (hdir : fs.isDirectoryAt (.present l) = true)
      (hp : isDots p = false) (hlength : p.length ≤ nameLimit)
      (hentry : fs.entry? (l ++ [p]) = none) :
      Leads fs links (.present l) [p] (.vacant (l ++ [p]))
  | link {links : Nat} {l : Location} {p : Bytes} {ps : List Bytes} {goal : Goal} {target : Path}
      (hdir : fs.isDirectoryAt (.present l) = true) (hp : isDots p = false)
      (hlength : p.length ≤ nameLimit) (hentry : fs.entry? (l ++ [p]) = some (.link target))
      (h : Leads fs links (if target.rooted then .root else .present l) (target.pieces ++ ps) goal)
      :
      Leads fs (links + 1) (.present l) (p :: ps) goal
  | name {links : Nat} {l : Location} {p : Bytes} {ps : List Bytes} {goal : Goal} {e : Entry}
      (hdir : fs.isDirectoryAt (.present l) = true) (hp : isDots p = false)
      (hlength : p.length ≤ nameLimit)
      (hentry : fs.entry? (l ++ [p]) = some e) (hlink : ∀ target, e ≠ .link target)
      (h : Leads fs links (.present (l ++ [p])) ps goal) :
      Leads fs links (.present l) (p :: ps) goal

theorem leads_nil_iff : fs.Leads links here [] goal ↔ goal = .found here := by
  constructor
  · intro h
    cases h
    rfl
  · rintro rfl
    exact .here

theorem Leads.walk_eq (h : fs.Leads links here ps goal) : fs.walk links here ps = .ok goal := by
  induction h with
  | here => exact walk_nil
  | stay hdir hp _ ih => rw [walk_cons, if_neg (by simp [hdir]), if_pos hp, ih]
  | up hdir _ ih => rw [walk_cons, if_neg (by simp [hdir]), if_neg (by decide), if_pos rfl, ih]
  | vacant hdir hp hlength hentry =>
    simp only [walk_name hdir hp hlength, hentry, List.isEmpty_nil, if_true]
  | link hdir hp hlength hentry _ ih =>
    simp only [walk_name hdir hp hlength, hentry, Nat.add_one_ne_zero, if_false, Nat.add_sub_cancel,
      ih]
  | name hdir hp hlength hentry hlink _ ih => simp only [walk_name hdir hp hlength, hentry, ih]

theorem Leads.of_stretch {follow : Position → Path → List Bytes → Except Failure Goal}
    (hfollow : ∀ l p target ps, fs.isDirectoryAt (.present l) = true → isDots p = false →
      p.length ≤ nameLimit →
      fs.entry? (l ++ [p]) = some (.link target) → follow (.present l) target ps = .ok goal →
      fs.Leads links (.present l) (p :: ps) goal) (h : fs.stretch follow here ps = .ok goal) :
    fs.Leads links here ps goal := by
  fun_induction FileSystem.stretch fs follow here ps with
  | case1 here =>
    obtain rfl := Except.ok.inj h
    exact .here
  | case2 | case5 | case6 | case8 => cases h
  | case3 here p ps hdir hdot ih => exact .stay (by simpa using hdir) hdot (ih h)
  | case4 here ps hdir hdot ih => exact .up (by simpa using hdir) (ih h)
  | case7 p ps hdot hup l hlong hentry hend hdir =>
    obtain rfl := Except.ok.inj h
    obtain rfl := List.isEmpty_iff.mp hend
    exact .vacant (by simpa using hdir) (not_isDots_iff.mpr ⟨hdot, hup⟩)
      (Nat.not_lt.mp hlong) hentry
  | case9 p ps hdot hup l hlong target hentry hdir =>
    exact hfollow l p target ps (by simpa using hdir) (not_isDots_iff.mpr ⟨hdot, hup⟩)
      (Nat.not_lt.mp hlong) hentry h
  | case10 p ps hdot hup l hlong e hlink hentry hdir ih =>
    exact .name (by simpa using hdir) (not_isDots_iff.mpr ⟨hdot, hup⟩) (Nat.not_lt.mp hlong) hentry
      (fun target heq ↦ hlink target heq) (ih h)

theorem Leads.of_walk (h : fs.walk links here ps = .ok goal) : fs.Leads links here ps goal := by
  induction links generalizing here ps with
  | zero =>
    refine .of_stretch ?_ h
    intro l p target ps _ _ _ _ hfollow
    cases hfollow
  | succ links ih =>
    exact .of_stretch (fun l p target ps hdir hp hlength hentry hfollow ↦
      .link hdir hp hlength hentry (ih hfollow)) h

end ModuleReload.FileSystem
