import ModuleReload.Proofs.FileSystem.Orderly

/-!
# File systems as they come about

A file system begins empty, and is changed by edits (`Edited`). Edits are given paths, and what they
change in the table they find by walks; a walk ends at something that is there
(`Orderly.stands_of_walk`) or at a place where something may be put (`Orderly.isPlace_of_walk`),
through however many links it has gone. So every edit leaves a proper file system behind
(`Edited.orderly`), and to suppose that a file system is proper excludes none that comes about.
-/

namespace ModuleReload.FileSystem

open ModuleReload.Path

variable {fs : FileSystem}

/-! ## Walks -/

/-- Whether something is at a position. A removed directory counts if it has been removed from
another. -/
def Stands (fs : FileSystem) : Position → Prop
  | .present l => ∃ e, fs.entry? l = some e
  | .removed p => fs.isDirectoryAt (.present p.base) = true

theorem stands_of_isDirectoryAt {l : Location} (h : fs.isDirectoryAt (.present l) = true) :
    fs.Stands (.present l) := by
  rw [isDirectoryAt] at h
  split at h
  · next t ht => exact ⟨_, ht⟩
  · simp at h

theorem stands_of_base {here : Position} (h : fs.isDirectoryAt (.present here.base) = true) :
    fs.Stands here := by
  cases here with
  | present l => exact stands_of_isDirectoryAt h
  | removed p => exact h

theorem isDirectoryAt_base {here : Position} (hhere : fs.Stands here)
    (h : fs.isDirectoryAt here = true) : fs.isDirectoryAt (.present here.base) = true := by
  cases here with
  | present l => exact h
  | removed p => exact hhere

theorem stands_root (fs : FileSystem) : fs.Stands .root :=
  stands_of_isDirectoryAt rfl

namespace Orderly

theorem stands_outer (hfs : fs.Orderly) {here : Position} (hhere : fs.Stands here)
    (h : fs.isDirectoryAt here = true) :
    fs.Stands here.outer := by
  cases here with
  | present l => exact stands_of_isDirectoryAt (hfs.toProper.isPlace_of_isDirectoryAt h).outer
  | removed p => exact stands_of_base hhere

theorem stands_of_walk (hfs : fs.Orderly) {links : Nat} {here goal : Position} {ps : List String}
    (hhere : fs.Stands here) (h : fs.walk links here ps = .ok (.found goal)) : fs.Stands goal := by
  replace h := Leads.of_walk h
  generalize hend : Goal.found goal = end' at h
  induction h with
  | here => exact Goal.found.inj hend ▸ hhere
  | vacant => cases hend
  | stay _ _ _ ih => exact ih hhere hend
  | up hdir _ ih => exact ih (hfs.stands_outer hhere hdir) hend
  | link _ _ _ _ _ ih =>
    refine ih ?_ hend
    split
    · exact fs.stands_root
    · exact hhere
  | name _ _ _ hentry _ _ ih => exact ih ⟨_, hentry⟩ hend

/-- A walk that finds nothing ends where something may be put. -/
theorem isPlace_of_walk (hfs : fs.Orderly) {links : Nat} {here : Position} {ps : List String}
    {l : Location} (hps : ∀ p ∈ ps, '\x00' ∉ p.toList)
    (h : fs.walk links here ps = .ok (.vacant l)) : fs.IsPlace l ∧ fs.entry? l = none := by
  replace h := Leads.of_walk h
  generalize hend : Goal.vacant l = end' at h
  induction h with
  | here => cases hend
  | stay _ _ _ ih | up _ _ ih | name _ _ _ _ _ _ ih =>
    exact ih (List.forall_mem_cons.mp hps).2 hend
  | vacant hdir hp hlength hentry =>
    obtain rfl := Goal.vacant.inj hend
    have hname : IsName _ := ⟨hp, hps _ List.mem_cons_self, hlength⟩
    exact ⟨hfs.toProper.isPlace_concat hdir hname, hentry⟩
  | link _ _ _ hentry _ ih =>
    have htarget := hfs.targets _ _ (mem_of_entry?_eq hentry (by simp))
    rw [containsNull, List.any_eq_false] at htarget
    refine ih (List.forall_mem_append.mpr ⟨fun q hq ↦ ?_, (List.forall_mem_cons.mp hps).2⟩) hend
    simpa using htarget q hq

theorem stands_origin (hfs : fs.Orderly) (p : Path) : fs.Stands (fs.origin p) := by
  rw [origin]
  split
  · exact fs.stands_root
  · exact stands_of_base hfs.here

theorem isPlace_of_entry?_eq (hfs : fs.Orderly) {l : Location} {e : Entry}
    (h : fs.entry? l = some e) : fs.IsPlace l := by
  by_cases hl : l = []
  · subst hl
    exact ⟨by simp, rfl⟩
  · exact hfs.toProper.isPlace_of_mem (mem_of_entry?_eq h hl)

theorem stands_of_locate (hfs : fs.Orderly) {p : Path} {here : Position}
    (h : fs.locate p = .ok here) : fs.Stands here := by
  rw [locate] at h
  split at h
  · next goal hgoal =>
    obtain rfl : goal = here := by simpa using h
    rw [FileSystem.goal] at hgoal
    split at hgoal
    · simp at hgoal
    · exact hfs.stands_of_walk (hfs.stands_origin p) hgoal
  · simp at h
  · simp at h

/-- The last name of a path stands for a place, whether or not something is there. -/
theorem isPlace_of_slot? (hfs : fs.Orderly) {p : Path} {s : Slot} (h : fs.slot? p = some s) :
    fs.IsPlace s.location ∧ s.location ≠ [] := by
  obtain ⟨front, name, slashes, l, -, -, hname, -, hl, hlocation, -⟩ := exists_of_slot? h
  rw [hlocation]
  exact ⟨hfs.toProper.isPlace_concat hl hname, by simp⟩

/-! ## Creating -/

theorem addDirectory (hfs : fs.Orderly) (p : Path) : (fs.addDirectory p).Orderly := by
  rw [FileSystem.addDirectory]
  split
  · next s hslot =>
    split
    · exact hfs
    · exact hfs.setEntry (hfs.isPlace_of_slot? hslot).1 (fun _ ↦ ⟨0, rfl⟩) (by simp)
  · exact hfs

theorem makeDirectory (hfs : fs.Orderly) (p : Path) : (fs.makeDirectory p).Orderly := by
  rw [FileSystem.makeDirectory]
  split
  · exact hfs
  · generalize p.ancestors.reverse = dirs
    induction dirs generalizing fs with
    | nil => exact hfs
    | cons dir dirs ih => exact ih (hfs.addDirectory dir)

theorem makeParent (hfs : fs.Orderly) (p : Path) : (fs.makeParent p).Orderly := by
  rw [FileSystem.makeParent]
  split
  · exact hfs.makeDirectory _
  · exact hfs

theorem write (hfs : fs.Orderly) (p : Path) (content : Content) (modified : Instant) :
    (fs.write p content modified).Orderly := by
  have hfs := hfs.makeParent p
  rw [FileSystem.write]
  generalize fs.makeParent p = fs at hfs
  split
  · next l hgoal =>
    rw [goal] at hgoal
    split at hgoal
    · simp at hgoal
    · next hallowed =>
      have hnull := (refusal?_eq_none_iff.mp hallowed).1
      rw [containsNull, List.any_eq_false] at hnull
      obtain ⟨hplace, hnone⟩ := hfs.isPlace_of_walk (fun q hq ↦ by simpa using hnull q hq) hgoal
      exact hfs.setEntry hplace (by simp [isDirectoryAt, entryAt?, hnone]) (by simp)
  · next l hgoal =>
    split
    · exact hfs
    · next hdirectory =>
      obtain ⟨e, he⟩ : fs.Stands (.present l) := hfs.stands_of_locate (by rw [locate, hgoal])
      exact hfs.setEntry (hfs.isPlace_of_entry?_eq he) (fun h ↦ absurd h hdirectory) (by simp)
  · exact hfs

theorem link (hfs : fs.Orderly) (p target : Path) : (fs.link p target).Orderly := by
  have hfs := hfs.makeParent p
  rw [FileSystem.link]
  generalize fs.makeParent p = fs at hfs
  split
  · next l hslot hallowed =>
    split
    · exact hfs
    · next hnone =>
      have hnone : fs.entry? l = none := by simpa using hnone
      refine hfs.setEntry (hfs.isPlace_of_slot? hslot).1 (by simp [isDirectoryAt, entryAt?, hnone])
        fun t ht ↦ ?_
      obtain rfl : target = t := by simpa using ht
      exact (refusal?_eq_none_iff.mp hallowed).1
  · exact hfs

theorem touch (hfs : fs.Orderly) (p : Path) (modified : Instant) :
    (fs.touch p modified).Orderly := by
  rw [FileSystem.touch]
  split
  · next l hlocate =>
    split
    · next content t he =>
      exact hfs.setEntry (hfs.isPlace_of_entry?_eq he) (by simp [isDirectoryAt, entryAt?, he])
        (by simp)
    · next t he =>
        exact hfs.setEntry (hfs.isPlace_of_entry?_eq he) (fun _ ↦ ⟨modified, rfl⟩) (by simp)
    · exact hfs
  · exact hfs

/-! ## Removing -/

theorem eraseSlot (hfs : fs.Orderly) {p : Path} {s : Slot} (h : fs.slot? p = some s) :
    (fs.eraseBelow s.location).Orderly :=
  hfs.eraseBelow (hfs.isPlace_of_slot? h).2 (hfs.isPlace_of_slot? h).1.outer

theorem remove (hfs : fs.Orderly) (p : Path) : (fs.remove p).Orderly := by
  rw [FileSystem.remove]
  split
  · next l hslot =>
    split
    · exact hfs
    · exact hfs.eraseSlot hslot
  · exact hfs

theorem emptied (hfs : fs.Orderly) (p : Path) : (removeDirectory.emptied fs p).Orderly := by
  rw [removeDirectory.emptied]
  split
  · split
    · next hdirectory => exact hfs.clear hdirectory
    · exact hfs
  · exact hfs

theorem removeDirectory (hfs : fs.Orderly) (p : Path) : (fs.removeDirectory p).Orderly := by
  rw [FileSystem.removeDirectory]
  split
  · next l slashed hslot =>
    split
    · exact hfs.eraseSlot hslot
    · split
      · exact hfs.emptied p
      · exact hfs.eraseSlot hslot
    · exact hfs
  · exact hfs.emptied p

/-! ## Moving -/

theorem isDirectoryAt_of_below (hfs : fs.Orderly) {l l' : Location}
    (h : fs.isDirectoryAt (.present l') = true) (hl : l <+: l') :
    fs.isDirectoryAt (.present l) = true := by
  obtain ⟨rest, rfl⟩ := hl
  by_cases hrest : rest = []
  · rwa [hrest, List.append_nil] at h
  · obtain ⟨t, ht⟩ := exists_mem_of_isDirectoryAt h (List.append_ne_nil_of_right_ne_nil l hrest)
    exact hfs.toProper.isDirectoryAt_of_append ht hrest

/-- Nothing is moved into itself: a directory is not, and in anything else there is no place. -/
theorem not_prefix_of_canMove (hfs : fs.Orderly) {src dst : Slot} (hdst : fs.IsPlace dst.location)
    (hmove : fs.canMove src dst = true) (hne : src.location ≠ dst.location) :
    ¬src.location <+: dst.location := by
  intro hprefix
  have hdirectory : fs.isDirectoryAt (.present src.location) = true := by
    obtain ⟨rest, heq⟩ := hprefix
    have hrest : rest ≠ [] := by
      rintro rfl
      exact hne (by simpa using heq)
    refine hfs.isDirectoryAt_of_below hdst.outer ⟨rest.dropLast, ?_⟩
    rw [← heq, List.dropLast_append_of_ne_nil hrest]
  have hbelow : src.location.isPrefixOf dst.location = true :=
    List.isPrefixOf_iff_prefix.mpr hprefix
  obtain ⟨t, ht⟩ : ∃ t, fs.entry? src.location = some (.directory t) := by
    rw [isDirectoryAt] at hdirectory
    split at hdirectory
    · next t ht => exact ⟨t, ht⟩
    · simp at hdirectory
  rw [canMove, ht, hbelow] at hmove
  cases hentry : fs.entry? dst.location with
  | none => simp [hentry] at hmove
  | some e => cases e <;> simp [hentry] at hmove

theorem rename (hfs : fs.Orderly) (p q : Path) : (fs.rename p q).Orderly := by
  have hfs := hfs.makeParent q
  rw [FileSystem.rename]
  generalize fs.makeParent q = fs at hfs
  split
  · next src dst hsrc hdst =>
    split
    · next hmove =>
      simp only [Bool.and_eq_true, decide_eq_true_eq] at hmove
      obtain ⟨hplace, hne⟩ := hfs.isPlace_of_slot? hdst
      have hend : ¬dst.location <+: dst.location.dropLast := not_prefix_dropLast hne
      refine (hfs.eraseSlot hdst).moveBelow
        ⟨⟨hplace.names, ?_⟩, (hfs.isPlace_of_slot? hsrc).2, hne, ?_, ?_⟩
      · exact hfs.toProper.isDirectoryAt_eraseBelow hplace.outer hend
      · rintro ⟨l, e⟩ he
        exact (mem_eraseBelow.mp he).2
      · exact hfs.not_prefix_of_canMove hplace hmove.1 hmove.2
    · exact hfs
  · exact hfs

/-! ## Entering -/

theorem enter (hfs : fs.Orderly) (p : Path) : (fs.enter p).Orderly := by
  rw [FileSystem.enter]
  split
  · next here hlocate =>
    split
    · next hdirectory =>
      exact ⟨⟨hfs.names, hfs.root, hfs.outer, hfs.nodup⟩, hfs.targets,
        isDirectoryAt_base (hfs.stands_of_locate hlocate) hdirectory⟩
    · exact hfs
  · exact hfs

theorem empty : FileSystem.empty.Orderly where
  names := by simp [FileSystem.empty]
  root := by simp [FileSystem.empty]
  outer := by simp [FileSystem.empty]
  nodup := List.nodup_nil
  targets := by simp [FileSystem.empty]
  here := rfl

end Orderly

/-! ## Edited file systems -/

/-- A file system that has come about by edits. -/
inductive Edited : FileSystem → Prop
  | empty : Edited .empty
  | makeDirectory {fs : FileSystem} (p : Path) : Edited fs → Edited (fs.makeDirectory p)
  | write {fs : FileSystem} (p : Path) (content : Content) (modified : Instant) :
      Edited fs → Edited (fs.write p content modified)
  | link {fs : FileSystem} (p target : Path) : Edited fs → Edited (fs.link p target)
  | touch {fs : FileSystem} (p : Path) (modified : Instant) :
      Edited fs → Edited (fs.touch p modified)
  | remove {fs : FileSystem} (p : Path) : Edited fs → Edited (fs.remove p)
  | removeDirectory {fs : FileSystem} (p : Path) : Edited fs → Edited (fs.removeDirectory p)
  | rename {fs : FileSystem} (p q : Path) : Edited fs → Edited (fs.rename p q)
  | enter {fs : FileSystem} (p : Path) : Edited fs → Edited (fs.enter p)

/-- **However a file system has come about, it is proper**, and one works in a directory of it. -/
theorem Edited.orderly (h : fs.Edited) : fs.Orderly := by
  induction h with
  | empty => exact .empty
  | makeDirectory p _ ih => exact ih.makeDirectory p
  | write p content modified _ ih => exact ih.write p content modified
  | link p target _ ih => exact ih.link p target
  | touch p modified _ ih => exact ih.touch p modified
  | remove p _ ih => exact ih.remove p
  | removeDirectory p _ ih => exact ih.removeDirectory p
  | rename p q _ ih => exact ih.rename p q
  | enter p _ ih => exact ih.enter p

end ModuleReload.FileSystem
