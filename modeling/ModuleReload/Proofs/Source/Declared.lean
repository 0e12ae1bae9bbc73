import ModuleReload.Proofs.Source.Scope
import ModuleReload.Source.Declared

/-!
# Which assignment declares

A declaration is an assignment of a list or tuple of string literals (`Grammar.Declares`). The
declared names are those of the last declaration of a source, whatever stands behind it: an
assignment of another form takes nothing back, though it is the last one to run.

So the last assignment decides what is declared, unless it is no declaration and one before it
declares something (`declared_agrees_iff`).
-/

namespace ModuleReload.Source

/-! ## Declarations -/

namespace Grammar

/-- A string literal as an item of a list. -/
inductive LiteralItem : List Token → String → Prop
  | mk (contents : String) : LiteralItem [.literal contents] contents

/-- String literals with a comma between each two, of which one may stand at the end, or nothing. -/
inductive Literals : List Token → List String → Prop
  | nil : Literals [] []
  | listed {ts last : List Token} {names : List String} (h : Listed LiteralItem ts names)
      (hlast : last = [] ∨ last = [.comma]) : Literals (ts ++ last) names

/-- An assignment of literals in round or square brackets to the name that declares. -/
inductive Declares : List Token → List String → Prop
  | mk {b : Bracket} {ts : List Token} {names : List String} (hb : b = .round ∨ b = .square)
      (h : Literals ts names) :
      Declares (.name declarationName :: .equals :: .opening b :: (ts ++ [.closing b])) names

/-- What may follow a literal in its list. -/
def Further (ts : List Token) (names : List String) : Prop :=
  (ts = [] ∧ names = []) ∨ ∃ us, ts = .comma :: us ∧ Literals us names

theorem Literals.cons {us : List Token} {ns : List String} (s : String) (h : Further us ns) :
    Literals (.literal s :: us) (s :: ns) := by
  obtain ⟨rfl, rfl⟩ | ⟨vs, rfl, hvs⟩ := h
  · exact .listed (.single (.mk s)) (.inl rfl)
  · cases hvs with
    | nil => exact .listed (.single (.mk s)) (.inr rfl)
    | listed hlist hlast => exact @Literals.listed _ _ _ (.cons (.mk s) hlist) hlast

end Grammar

open ModuleReload.Source.Grammar

variable {b : Bracket} {ts : List Token} {names : List String}

theorem literals_of_literalsUntil {wanted : Bool} (h : literalsUntil b wanted ts = some names) :
    ∃ us, ts = us ++ [.closing b] ∧ (if wanted then Literals us names else Further us names) := by
  fun_induction literalsUntil b wanted ts generalizing names with
  | case1 wanted =>
    obtain rfl := Option.some.inj h
    refine ⟨[], rfl, ?_⟩
    split
    · exact .nil
    · exact .inl ⟨rfl, rfl⟩
  | case3 contents ts ih =>
    obtain ⟨ns, hns, rfl⟩ := Option.map_eq_some_iff.mp h
    obtain ⟨us, rfl, hus⟩ := ih hns
    exact ⟨.literal contents :: us, rfl, .cons contents hus⟩
  | case6 wanted ts hwanted ih =>
    obtain ⟨us, rfl, hus⟩ := ih h
    exact ⟨.comma :: us, rfl, by rw [if_neg hwanted]; exact .inr ⟨us, rfl, hus⟩⟩
  | case2 | case4 | case5 | case7 => simp at h

theorem literalsUntil_of_listed {last : List Token} (h : Listed LiteralItem ts names)
    (hlast : last = [] ∨ last = [.comma]) :
    literalsUntil b true (ts ++ last ++ [.closing b]) = some names := by
  induction h with
  | single h =>
    obtain ⟨s⟩ := h
    rcases hlast with rfl | rfl <;> simp [literalsUntil]
  | cons h _ ih =>
    obtain ⟨s⟩ := h
    simpa [literalsUntil] using ih

theorem literalsUntil_eq_some_iff :
    literalsUntil b true ts = some names ↔ ∃ us, ts = us ++ [.closing b] ∧ Literals us names := by
  refine ⟨fun h ↦ by simpa using literals_of_literalsUntil h, ?_⟩
  rintro ⟨us, rfl, h⟩
  cases h with
  | nil => simp [literalsUntil]
  | listed h hlast => exact literalsUntil_of_listed h hlast

theorem declaration?_eq_some_iff : declaration? ts = some names ↔ Declares ts names := by
  have hbracket (b : Bracket) : b ≠ .curly ↔ b = .round ∨ b = .square := by cases b <;> decide
  constructor
  · intro h
    rw [declaration?.eq_def] at h
    split at h
    · next target b us =>
      split at h
      case isTrue hform =>
        obtain ⟨rfl, hb⟩ := hform
        obtain ⟨vs, rfl, hvs⟩ := literalsUntil_eq_some_iff.mp h
        exact .mk ((hbracket b).mp hb) hvs
      case isFalse => simp at h
    · simp at h
  · rintro ⟨hb, h⟩
    rw [declaration?, if_pos ⟨rfl, (hbracket _).mpr hb⟩]
    exact literalsUntil_eq_some_iff.mpr ⟨_, rfl, h⟩

/-- Whether a statement declares names. -/
def IsDeclaration (ts : List Token) : Prop :=
  ∃ names, Declares ts names

/-- Whether a statement begins with the name that declares and one equals sign. -/
def IsAssignment (ts : List Token) : Prop :=
  ts.take 2 = [.name declarationName, .equals] ∧ ts[2]? ≠ some .equals

theorem isSome_declaration?_iff : (declaration? ts).isSome = true ↔ IsDeclaration ts := by
  rw [Option.isSome_iff_exists]
  exact exists_congr fun _ ↦ declaration?_eq_some_iff

instance : DecidablePred IsDeclaration := fun _ ↦ decidable_of_iff _ isSome_declaration?_iff

instance : DecidablePred IsAssignment := fun _ ↦ inferInstanceAs (Decidable (_ ∧ _))

theorem IsDeclaration.isAssignment (h : IsDeclaration ts) : IsAssignment ts := by
  obtain ⟨_, ⟨-, -⟩⟩ := h
  exact ⟨rfl, by simp⟩

/-! ## The last one -/

variable {ss : List Statement} {s s' : Statement} {P Q : List Token → Prop} [DecidablePred P]
  [DecidablePred Q]

/-- The last statement outside all blocks that has the property. -/
def last? (P : List Token → Prop) [DecidablePred P] (ss : List Statement) : Option Statement :=
  ((ss.filter Statement.isTopLevel).filter fun s ↦ decide (P s.tokens)).getLast?

theorem last?_eq_find? (ss : List Statement) :
    last? P ss = (ss.filter Statement.isTopLevel).reverse.find? fun s ↦ decide (P s.tokens) :=
  List.getLast?_filter

theorem last?_holds (h : last? P ss = some s) : P s.tokens := by
  rw [last?_eq_find?] at h
  simpa using List.find?_some h

/-- If the last statement with a weaker property has the stronger one, it is the last one with that
too. -/
theorem last?_of_imp (hPQ : ∀ ts, P ts → Q ts) (h : last? Q ss = some s) (hs : P s.tokens) :
    last? P ss = some s := by
  rw [last?_eq_find?] at h ⊢
  obtain ⟨-, as, bs, hsplit, has⟩ := List.find?_eq_some_iff_append.mp h
  refine List.find?_eq_some_iff_append.mpr ⟨by simpa using hs, as, bs, hsplit, fun a ha ↦ ?_⟩
  have hQ : ¬Q a.tokens := by simpa using has a ha
  simpa using mt (hPQ a.tokens) hQ

theorem last?_eq_none_of_imp (hPQ : ∀ ts, P ts → Q ts) (h : last? Q ss = none) :
    last? P ss = none := by
  rw [last?_eq_find?] at h ⊢
  refine List.find?_eq_none.mpr fun a ha ↦ ?_
  have hQ : ¬Q a.tokens := by simpa using List.find?_eq_none.mp h a ha
  simpa using mt (hPQ a.tokens) hQ

theorem findSome?_eq_bind {α β : Type} (f : α → Option β) (as : List α) :
    as.findSome? f = (as.find? fun a ↦ (f a).isSome).bind f := by
  induction as with
  | nil => rfl
  | cons a as ih =>
    rw [List.findSome?_cons, List.find?_cons]
    cases h : f a with
    | none => exact ih
    | some b => exact h.symm

/-- What is declared if one statement decides it: its literals if it is a declaration, and nothing
if it is none or there is no such statement. -/
def Decides : Option Statement → List String → Prop
  | none, names => names = []
  | some s, names => Declares s.tokens names ∨ ¬IsDeclaration s.tokens ∧ names = []

theorem declared_of_last {source : String} (h : statements source.toList = .ok ss) :
    Decides (last? IsDeclaration ss) (declared source) := by
  have hlast : last? IsDeclaration ss =
      (ss.filter Statement.isTopLevel).reverse.find? fun s ↦ (declaration? s.tokens).isSome := by
    rw [last?_eq_find?]
    congr 1
    funext s
    rw [Bool.eq_iff_iff, decide_eq_true_eq, isSome_declaration?_iff]
  have hdeclared :
      declared source = ((last? IsDeclaration ss).bind fun s ↦ declaration? s.tokens).getD [] := by
    rw [declared, h]
    dsimp only
    rw [List.getLast?_filterMap, findSome?_eq_bind, hlast]
  cases hs : last? IsDeclaration ss with
  | none => rw [hdeclared, hs]; rfl
  | some s =>
    obtain ⟨names, hnames⟩ := last?_holds hs
    have hfound : declared source = names := by
      rw [hdeclared, hs, Option.bind_some, declaration?_eq_some_iff.mpr hnames, Option.getD_some]
    exact .inl (hfound ▸ hnames)

theorem Grammar.Declares.unique {names' : List String} (h : Declares ts names)
    (h' : Declares ts names') : names = names' :=
  Option.some.inj ((declaration?_eq_some_iff.mpr h).symm.trans (declaration?_eq_some_iff.mpr h'))

/-- **The last declaration decides**, and so does the last assignment unless it is no declaration
and there is one before it that declares something. -/
theorem declared_agrees_iff {source : String} (h : statements source.toList = .ok ss) :
    Decides (last? IsDeclaration ss) (declared source) ∧
    (Decides (last? IsAssignment ss) (declared source) ↔
      ∀ s names, last? IsDeclaration ss = some s → Declares s.tokens names → names ≠ [] →
        last? IsAssignment ss = some s) := by
  have himp : ∀ ts, IsDeclaration ts → IsAssignment ts := fun _ ↦ IsDeclaration.isAssignment
  have hlast := declared_of_last h
  refine ⟨hlast, ?_⟩
  cases hassigned : last? IsAssignment ss with
  | none =>
    have hnone := last?_eq_none_of_imp himp hassigned
    rw [hnone] at hlast ⊢
    exact iff_of_true hlast (by simp)
  | some t =>
    by_cases ht : IsDeclaration t.tokens
    · rw [last?_of_imp himp hassigned ht] at hlast ⊢
      exact iff_of_true hlast fun s _ hs _ _ ↦ hs
    · -- The last assignment is not the last declaration, so nothing has to be declared by that.
      have hne (s : Statement) (hs : last? IsDeclaration ss = some s) : t ≠ s := by
        rintro rfl
        exact ht (last?_holds hs)
      cases hdeclared : last? IsDeclaration ss with
      | none =>
        rw [hdeclared] at hlast
        exact iff_of_true (.inr ⟨ht, hlast⟩) (by simp)
      | some s =>
        rw [hdeclared] at hlast
        obtain ⟨names, hnames⟩ := last?_holds hdeclared
        have hfound : declared source = names :=
          (hlast.resolve_right fun h ↦ h.1 ⟨names, hnames⟩).unique hnames
        constructor
        · rintro hdecides _ names' ⟨⟩ hnames' hne'
          have hempty := (hdecides.resolve_left fun h ↦ ht ⟨_, h⟩).2
          exact absurd ((hnames'.unique hnames).trans (hfound.symm.trans hempty)) hne'
        · intro hall
          refine .inr ⟨ht, ?_⟩
          by_contra hnonempty
          exact hne s hdeclared (Option.some.inj (hall s names rfl hnames (hfound ▸ hnonempty)))

/-- A declaration, and behind it an assignment of a name: the last assignment decides nothing. -/
theorem declared_agrees_iff_reassigned :
    let word := ['_', '_', 'a', 'l', 's', 'o', '_', 'r', 'e', 'l', 'o', 'a', 'd', '_', '_']
    let source := word ++ [' ', '=', '[', '\'', 'a', '\'', ']', '\n'] ++ word ++ [' ', '=', 'x']
    let first : Statement :=
      ⟨1, false, false, [.name declarationName, .equals, .opening .square, .literal "a",
        .closing .square]⟩
    let second : Statement := ⟨2, false, false, [.name declarationName, .equals, .name "x"]⟩
    statements source = .ok [first, second] ∧ declared (String.ofList source) = ["a"] ∧
      last? IsAssignment [first, second] = some second ∧ ¬IsDeclaration second.tokens ∧
      ¬Decides (last? IsAssignment [first, second]) (declared (String.ofList source)) := by
  intro word source first second
  have hword : Spells word (some ' ') (.token (.name declarationName)) :=
    @Spells.name '_' ['_', 'a', 'l', 's', 'o', '_', 'r', 'e', 'l', 'o', 'a', 'd', '_', '_']
      (by decide) (by decide)
      (some ' ') (by decide) (by decide)
  have hliteral : Spells ['\'', 'a', '\''] (some ']') (.token (.literal "a")) :=
    .literal .absent (by decide : isQuote '\'' = true)
      (.line (.cons (by decide) (by decide) (by decide) .nil)) (by simp)
  have hfirst :
      Reads [' ', '=', '[', '\'', 'a', '\'', ']', '\n'] (some '_') [.blank, .token .equals,
      .token (.opening .square), .token (.literal "a"), .token (.closing .square), .lineEnd] :=
    .cons (.blank (.inl rfl) _)
      (.cons (.mark (by decide) (by simp)) (.cons (.mark (by decide) (by simp))
      (.cons hliteral (.cons (.mark (by decide) (by simp)) (.single (.lineEnd _))))))
  have hx : Spells ['x'] none (.token (.name "x")) := .name (by decide) rfl (by decide) (by decide)
  have hsecond : Reads [' ', '=', 'x'] none [.blank, .token .equals, .token (.name "x")] :=
    .cons (.blank (.inl rfl) _) (.cons (.mark (by decide) (by simp)) (.single hx))
  have hreads := (((Reads.single hword).append hfirst).append (.single hword)).append hsecond
  have hstatements : statements source = .ok [first, second] := by
    rw [statements, withoutMark_of_head (by decide), hreads.lexemes_eq]
    rfl
  have hstatements' : statements (String.ofList source).toList = .ok [first, second] := by
    rwa [String.toList_ofList]
  have hassigned : last? IsAssignment [first, second] = some second := by decide
  have hdeclaration : last? IsDeclaration [first, second] = some first := by decide
  have hnames : Declares first.tokens ["a"] := declaration?_eq_some_iff.mp rfl
  obtain ⟨hlast, hagree⟩ := declared_agrees_iff hstatements'
  rw [hdeclaration] at hlast
  refine ⟨hstatements, (hlast.resolve_right fun h ↦ h.1 ⟨_, hnames⟩).unique hnames,
    hassigned, by decide, fun h ↦ ?_⟩
  have hsame := hagree.mp h first ["a"] hdeclaration hnames (by simp)
  exact absurd (hsame.symm.trans hassigned) (by decide)

end ModuleReload.Source
