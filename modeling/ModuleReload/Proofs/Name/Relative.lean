import ModuleReload.Name.Relative

/-!
# What relative names mean

A relative name is counted back from the parts of the name of its module, or from these and one part
more in a package. In both cases the first dot takes away the part that stands behind the package,
and each other dot one part of the package. So what a relative name means is decided by the package
alone (`resolve_in_package`). A module without a package has nothing in front of its last part, and
no relative name means anything in it.
-/

namespace ModuleReload.Name

open Text

/-! ## Names behind dots -/

/-- The name that stands behind so many dots. -/
def behindDots (k : Nat) (x : String) : String :=
  String.ofList (List.replicate k '.' ++ x.toList)

theorem span_dots {cs : List Char} (hcs : cs.head? ≠ some '.') (k : Nat) :
    (List.replicate k '.' ++ cs).takeWhile (· = '.') = List.replicate k '.' ∧
      (List.replicate k '.' ++ cs).dropWhile (· = '.') = cs := by
  have hdots : ∀ c ∈ List.replicate k '.', decide (c = '.') = true := by simp
  have hnone : cs.takeWhile (· = '.') = [] ∧ cs.dropWhile (· = '.') = cs := by
    cases cs with
    | nil => exact ⟨rfl, rfl⟩
    | cons c cs =>
      have hc : ¬decide (c = '.') = true := by simpa using hcs
      exact ⟨List.takeWhile_cons_of_neg hc, List.dropWhile_cons_of_neg hc⟩
  rw [List.takeWhile_append_of_pos hdots, List.dropWhile_append_of_pos hdots, hnone.1, hnone.2]
  exact ⟨List.append_nil _, rfl⟩

theorem leadingDots_behindDots {x : String} (hx : x.toList.head? ≠ some '.') (k : Nat) :
    leadingDots (behindDots k x) = k := by
  rw [leadingDots, behindDots, String.toList_ofList, (span_dots hx k).1, List.length_replicate]

theorem afterDots_behindDots {x : String} (hx : x.toList.head? ≠ some '.') (k : Nat) :
    afterDots (behindDots k x) = x := by
  rw [afterDots, behindDots, String.toList_ofList, (span_dots hx k).2, String.ofList_toList]

theorem behindDots_zero (x : String) : behindDots 0 x = x :=
  String.ofList_toList

/-! ## Counting back -/

/-- What stands behind dots means below the parts that they leave: these parts, and the rest of the
name if there is one. -/
def below (anchor : List String) (rest : String) : String :=
  if rest = "" then paste '.' anchor else paste '.' anchor ++ "." ++ rest

theorem below_of_ne {anchor : List String} {rest : String} (hanchor : anchor ≠ [])
    (hrest : rest ≠ "") : below anchor rest = paste '.' (anchor ++ [rest]) := by
  rw [below, if_neg hrest, paste_concat '.' hanchor]

theorem take_sub_ne_nil {parts : List String} {k : Nat} (hk : k < parts.length) :
    parts.take (parts.length - k) ≠ [] := by
  rw [ne_eq, List.take_eq_nil_iff]
  rintro (h | rfl)
  · omega
  · simp at hk

theorem resolve_eq_ite {package module rest : String} {parts : List String} {k : Nat}
    (hparts : partsFor package module = parts) (hne : "" ∉ parts) (hk : 0 < k)
    (hrest : rest.toList.head? ≠ some '.') :
    resolve package module (behindDots k rest) =
      if k < parts.length then .ok (below (parts.take (parts.length - k)) rest)
      else .error ⟨behindDots k rest, module⟩ := by
  have hanchor : (parts.take (parts.length - k)).contains "" = false := by
    simpa using fun hmem ↦ hne (List.mem_of_mem_take hmem)
  rw [resolve, leadingDots_behindDots hrest, if_neg (Nat.ne_of_gt hk)]
  simp only [hparts, hanchor, afterDots_behindDots hrest]
  by_cases hlt : k < parts.length
  · rw [if_pos hlt, if_neg, below]
    · simp only [String.isEmpty_iff]
      split <;> rfl
    · rintro (h | h | h)
      · omega
      · exact take_sub_ne_nil hlt (List.isEmpty_iff.mp h)
      · exact absurd h (by decide)
  · rw [if_neg hlt, if_pos]
    right; left
    rw [List.isEmpty_iff, List.take_eq_nil_iff]
    left; omega

/-- From the parts of a package and one more, the first dot takes away the one, and the others take
parts of the package. -/
theorem resolve_of_partsFor {package module rest : String} {ps : List String} {c : String} {k : Nat}
    (hparts : partsFor package module = ps ++ [c]) (hne : "" ∉ ps ++ [c]) (hk : 0 < k)
    (hrest : rest.toList.head? ≠ some '.') :
    resolve package module (behindDots k rest) =
      if k ≤ ps.length then .ok (below (ps.take (ps.length + 1 - k)) rest)
      else .error ⟨behindDots k rest, module⟩ := by
  have htake : (ps ++ [c]).take (ps.length + 1 - k) = ps.take (ps.length + 1 - k) :=
    List.take_append_of_le_length (by omega)
  rw [resolve_eq_ite hparts hne hk hrest, List.length_append, List.length_singleton, htake]
  simp only [Nat.lt_succ_iff]

/-! ## Packages and their modules -/

variable {ps : List String} {c : String}

theorem partsFor_module (hps : ps ≠ []) (hdots : ∀ p ∈ ps, '.' ∉ p.toList) (hc : '.' ∉ c.toList) :
    partsFor (paste '.' ps) (paste '.' ps ++ "." ++ c) = ps ++ [c] := by
  have hmodule : paste '.' ps ++ "." ++ c = paste '.' (ps ++ [c]) := (paste_concat '.' hps c).symm
  have hcut : cut '.' (paste '.' (ps ++ [c])) = ps ++ [c] := by
    refine cut_paste (by simp) (List.forall_mem_append.mpr ⟨hdots, ?_⟩)
    simpa using hc
  rw [hmodule, partsFor, if_neg, hcut]
  intro hsame
  have hparts := congrArg (cut '.') hsame
  rw [hcut, cut_paste hps hdots] at hparts
  simpa using congrArg List.length hparts

theorem partsFor_package (hps : ps ≠ []) (hdots : ∀ p ∈ ps, '.' ∉ p.toList) :
    partsFor (paste '.' ps) (paste '.' ps) = ps ++ [ownPart] := by
  rw [partsFor, if_pos rfl, cut_paste hps hdots]

/-- **Relative names depend on the package alone.** In a package and in each of its modules a name
behind dots means the same: of the dots, all but the first take away the last parts of the package,
and the name stands below what is left. With more dots than the package has parts it is an error in
both. In a module outside all packages every name behind dots is an error, and without dots a name
means itself everywhere. -/
theorem resolve_in_package {rest : String} {k : Nat} (hps : ps ≠ [])
    (hparts : ∀ p ∈ ps, p ≠ "" ∧ '.' ∉ p.toList) (hne : c ≠ "") (hc : '.' ∉ c.toList) (hk : 0 < k)
    (hrest : rest.toList.head? ≠ some '.') :
    let package := paste '.' ps
    let module := package ++ "." ++ c
    let name := behindDots k rest
    (k ≤ ps.length →
      resolve package module name = .ok (below (ps.take (ps.length + 1 - k)) rest) ∧
        resolve package package name = .ok (below (ps.take (ps.length + 1 - k)) rest)) ∧
    (ps.length < k →
      resolve package module name = .error ⟨name, module⟩ ∧
        resolve package package name = .error ⟨name, package⟩) ∧
    resolve "" c name = .error ⟨name, c⟩ ∧
    ∀ package module, resolve package module rest = .ok rest := by
  intro package module name
  have hdots : ∀ p ∈ ps, '.' ∉ p.toList := fun p hp ↦ (hparts p hp).2
  have hfull : ∀ d : String, d ≠ "" → "" ∉ ps ++ [d] := by
    intro d hd hmem
    rcases List.mem_append.mp hmem with hmem | hmem
    · exact (hparts _ hmem).1 rfl
    · exact hd (List.mem_singleton.mp hmem).symm
  have hmodule := resolve_of_partsFor (partsFor_module hps hdots hc) (hfull c hne) hk hrest
  have hpackage :=
    resolve_of_partsFor (partsFor_package hps hdots) (hfull ownPart (by decide)) hk hrest
  refine ⟨fun hle ↦ ?_, fun hlt ↦ ?_, ?_, fun package module ↦ ?_⟩
  · rw [if_pos hle] at hmodule hpackage
    exact ⟨hmodule, hpackage⟩
  · rw [if_neg (by omega)] at hmodule hpackage
    exact ⟨hmodule, hpackage⟩
  · have houtside : partsFor "" c = [] ++ [c] := by
      have hcut : cut '.' (paste '.' [c]) = [c] := cut_paste (by simp) (by simpa using hc)
      rw [paste_singleton] at hcut
      rw [partsFor, if_neg hne.symm, hcut, List.nil_append]
    rw [resolve_of_partsFor houtside (by simpa using hne.symm) hk hrest,
      if_neg (by simpa using Nat.ne_of_gt hk)]
  · have hnone := leadingDots_behindDots hrest 0
    rw [behindDots_zero] at hnone
    exact resolve_absolute hnone package module

/-- Two dots in a package inside another one, and in a module of it. -/
theorem resolve_in_package_inner :
    resolve "pkg.sub" "pkg.sub.mod" "..x.y" = .ok "pkg.x.y" ∧
      resolve "pkg.sub" "pkg.sub" "..x.y" = .ok "pkg.x.y" ∧
      resolve "pkg.sub" "pkg.sub.mod" "..." = .error ⟨"...", "pkg.sub.mod"⟩ := by
  have hparts : ∀ p ∈ ["pkg", "sub"], p ≠ "" ∧ '.' ∉ p.toList := by decide
  have hinside :=
    (@resolve_in_package ["pkg", "sub"] "mod" "x.y" 2 (by decide) hparts (by decide) (by decide)
      (by decide) (by decide)).1 (by decide)
  have hbeyond :=
    (@resolve_in_package ["pkg", "sub"] "mod" "" 3 (by decide) hparts (by decide) (by decide)
      (by decide) (by decide)).2.1 (by decide)
  exact ⟨hinside.1, hinside.2, hbeyond.1⟩

end ModuleReload.Name
