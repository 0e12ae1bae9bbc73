import Mathlib.Data.List.Forall2
import ModuleReload.Proofs.Source.Phrase
import ModuleReload.Proofs.Source.Scope

/-!
# Compound statements on one line

In `if x: import a; import b` a compound statement and its block share a line. `OneLine` says how
such a line is written. Between two sources it asks for nothing in top-level scope, and in deep
scope for what the statements of its block ask for, one after the other (`imports_of_oneLine`).

The ends of a source are special: blanks at its end and a byte order mark at its beginning are no
part of it. Between others it stands with both, so it has to be accepted for its names as it stands
there (`imports_of_oneLine_ends`).
-/

namespace ModuleReload.Source

open Text ModuleReload.Source.Grammar

variable {scope : Scope} {ts : List Token} {names : List String}

/-! ## Lines -/

/-- A statement that is not empty, is not compound, and does not turn a colon before it into
`:=`. -/
structure Simple (ts : List Token) : Prop where
  ne_nil : ts ≠ []
  head_ne : ts.head? ≠ some .equals
  not_compound : Token.startsCompound ts = false

/-- `OneLine line word header clauses` if the line is that word, a header, a colon and these simple
statements with semicolons between them. It may go on over line ends inside brackets, and behind a
backslash. -/
structure OneLine (line : List Char) (word : String) (header : List Token)
    (clauses : List (List Token)) : Prop where
  word_mem : word ∈ Token.compoundWords
  isHeader : Header header
  simple : ∀ ts ∈ clauses, Simple ts
  reads : ∃ hs bs, Reads line none (.token (.name word) :: (hs ++ .token .colon :: bs)) ∧
    Phrase false hs header ∧ Clauses bs clauses

/-- The statements of a compound statement on one line: the first clause of its block is part of its
own statement, and the others are nested ones. -/
inductive Block (word : String) (header : List Token) : List (List Token) → List Statement → Prop
  | mk {s : Statement} {ss : List Statement} {first : List Token} (htop : s.isTopLevel = true)
      (htokens : s.tokens = .name word :: (header ++ .colon :: first))
      (hnested : ∀ t ∈ ss, t.nested = true) :
      Block word header (first :: ss.map Statement.tokens) (s :: ss)

variable {word : String} {header : List Token} {clauses : List (List Token)}
  {line front back : List Char}

theorem Spells.head?_ne_of_name {text : List Char} {next : Option Char}
    (h : Spells text next (.token (.name word))) : text.head? ≠ some '\uFEFF' := by
  intro hhead
  generalize hl : Lexeme.token (.name word) = l at h
  cases h with
  | name hc =>
    obtain rfl := Option.some.inj hhead
    exact absurd hc (by decide)
  | mark =>
    obtain rfl := Option.some.inj hhead
    rw [show Source.mark '\uFEFF' = .other from by decide] at hl
    simp at hl
  | _ => simp at hl

theorem Clauses.exists_cons {ls : List Lexeme} (h : Clauses ls clauses) :
    ∃ first further, clauses = first :: further := by
  cases h <;> exact ⟨_, _, rfl⟩

theorem map_snd_numbered (line : Nat) (ls : List Lexeme) :
    (numbered line ls).map Prod.snd = ls := by
  induction ls generalizing line with
  | nil => rfl
  | cons l ls ih => rw [numbered, List.map_cons, ih]

/-- What the lexer finds is how a text is written, unless it finds a fault. -/
theorem reads_of_lexemes {text : List Char} {ls : List Lexeme}
    (h : (lexemes 1 text).map Prod.snd = ls) (hls : ∀ fault, .malformed fault ∉ ls) :
    Reads text none ls := by
  obtain ⟨ms, hreads, hlexemes⟩ := @exists_reads 1 text fun l hl fault hfault ↦
    hls fault (h ▸ hfault ▸ List.mem_map_of_mem hl)
  rw [hlexemes, map_snd_numbered] at h
  exact h ▸ hreads

namespace OneLine

theorem head?_ne (h : OneLine line word header clauses) :
    line ≠ [] ∧ line.head? ≠ some '\uFEFF' := by
  obtain ⟨hs, bs, hreads, -, -⟩ := h.reads
  cases hreads with
  | cons hspells _ =>
    have hhead := hspells.head?_ne_of_name
    obtain ⟨c, cs, rfl, -⟩ := hspells.exists_lexeme
    exact ⟨List.cons_ne_nil _ _, hhead⟩

theorem exists_statements (h : OneLine line word header clauses) :
    ∃ ss, statements line = .ok ss ∧ Block word header clauses ss := by
  obtain ⟨hs, bs, hreads, hheader, hclauses⟩ := h.reads
  obtain ⟨first, further, rfl⟩ := hclauses.exists_cons
  obtain ⟨hfirst, hfurther⟩ := List.forall_mem_cons.mp h.simple
  -- The statement being collected when the colon has been read.
  generalize ha : ((Assembly.start.push (.name word)).extended header).extended [.colon] = a
  have htokens : a.draft.tokens.reverse ++ first = .name word :: (header ++ .colon :: first) := by
    simp [← ha, Assembly.extended, Assembly.push, Assembly.start, Assembly.begun]
  have hhead (line : Nat) (ls : List Lexeme) :
      ∃ k, Assembly.start.run (numbered line (.token (.name word) :: (hs ++ .token .colon :: ls))) =
        a.run (numbered k ls) := by
    obtain ⟨k, hk⟩ := exists_numbered_append (line + 0) hs (.token .colon :: ls)
    have hword :
        Assembly.start.step line (.token (.name word)) = .ok (Assembly.start.push (.name word)) :=
      rfl
    refine ⟨k, ?_⟩
    rw [Assembly.run_of_step hword, show (Lexeme.token (.name word)).height = 0 from rfl, hk,
      Assembly.run_append_of_run (Assembly.run_phrase hheader rfl (by simp) _),
      Assembly.run_of_step (Assembly.step_token rfl k rfl), ha]
    rfl
  obtain ⟨k, hk⟩ := hhead 1 bs
  obtain ⟨b, ss, hrun, hwaiting, hsettled, hss, hnested⟩ :=
    Assembly.run_clauses hclauses (by rw [← ha]; rfl) (by rw [← ha]; rfl)
      (htokens ▸ List.cons_ne_nil _ _)
      (fun ts hts ↦ (hfurther ts hts).ne_nil)
      (.inr (htokens ▸
        Token.opensBlock_of_header h.word_mem h.isHeader hfirst.ne_nil hfirst.head_ne)) k
  refine ⟨b.settled.reverse, statements_eq_ok_iff.mpr ⟨b, ?_, hwaiting, rfl⟩, ?_⟩
  · rw [withoutMark_of_head h.head?_ne.2, hreads.lexemes_eq, hk, hrun]
  · have hcomplete : a.complete = [] := by rw [← ha]; rfl
    rw [hsettled, hcomplete, ← hss, List.reverse_append, List.reverse_reverse]
    exact .mk (by rw [← ha]; rfl) htokens hnested

end OneLine

/-! ## What the line asks for -/

namespace Grammar

/-- The names that a simple statement asks for: those of an import, and none if it does not begin as
one. -/
inductive Asks (ts : List Token) : List String → Prop
  | derived {names : List String} (h : Derives ts names) : Asks ts names
  | nothing (himport : ts.head? ≠ some (.name "import")) (hfrom : ts.head? ≠ some (.name "from")) :
      Asks ts []

/-- Whether a statement begins as an import and is none. -/
def Malformed (ts : List Token) : Prop :=
  (ts.head? = some (.name "import") ∨ ts.head? = some (.name "from")) ∧ ∀ names, ¬Derives ts names

theorem Derives.head? (h : Derives ts names) :
    ts.head? = some (.name "import") ∨ ts.head? = some (.name "from") := by
  cases h with
  | modules => exact .inl rfl
  | members | siblings => exact .inr rfl

theorem malformed_iff : Malformed ts ↔ ¬∃ names, Asks ts names := by
  constructor
  · rintro ⟨hhead, hnone⟩ ⟨names, h | ⟨himport, hfrom⟩⟩
    · exact hnone _ h
    · exact hhead.elim himport hfrom
  · intro h
    refine ⟨?_, fun names hderives ↦ h ⟨names, .derived hderives⟩⟩
    by_contra hhead
    obtain ⟨himport, hfrom⟩ := not_or.mp hhead
    exact h ⟨[], .nothing himport hfrom⟩

end Grammar

theorem exists_forall₂_iff {α β : Type} {R : α → β → Prop} {xs : List α} :
    (∃ ys, List.Forall₂ R xs ys) ↔ ∀ x ∈ xs, ∃ y, R x y := by
  induction xs with
  | nil => simp
  | cons x xs ih =>
    rw [List.forall_mem_cons, ← ih]
    simp only [List.forall₂_cons_left_iff]
    constructor
    · rintro ⟨_, y, ys, hy, hys, rfl⟩
      exact ⟨⟨y, hy⟩, ys, hys⟩
    · rintro ⟨⟨y, hy⟩, ys, hys⟩
      exact ⟨y :: ys, y, ys, hy, hys, rfl⟩

/-- A statement that is not compound asks for the names of its import, if it is one. -/
theorem importedNames_deep_eq_ok_iff (hsimple : Token.startsCompound ts = false) :
    importedNames .deep ts = .ok names ↔ Asks ts names := by
  cases hparsed : Import.ofTokens? ts with
  | none =>
    obtain ⟨himport, hfrom⟩ := Import.ofTokens?_eq_none_iff.mp hparsed
    rw [importedNames, hparsed]
    dsimp only
    rw [if_neg (by simp [hsimple])]
    constructor
    · rintro ⟨⟩
      exact .nothing himport hfrom
    · rintro (h | -)
      · exact (h.head?.elim himport hfrom).elim
      · rfl
  | some parsed =>
    have hhead : ¬(ts.head? ≠ some (.name "import") ∧ ts.head? ≠ some (.name "from")) := by
      rw [← Import.ofTokens?_eq_none_iff, hparsed]
      simp
    rw [importedNames, hparsed]
    refine (Import.ofTokens?_derives hparsed).trans ⟨.derived, ?_⟩
    rintro (h | ⟨himport, hfrom⟩)
    · exact h
    · exact absurd ⟨himport, hfrom⟩ hhead

theorem importedBy_deep_eq_ok_iff {ss : List Statement}
    (hsimple : ∀ ts ∈ ss.map Statement.tokens, Token.startsCompound ts = false) :
    importedBy .deep ss = .ok names ↔
      ∃ found, List.Forall₂ Asks (ss.map Statement.tokens) found ∧ found.flatten = names := by
  induction ss generalizing names with
  | nil => simp [importedBy, eq_comm]
  | cons s ss ih =>
    obtain ⟨hs, hsimple⟩ := List.forall_mem_cons.mp hsimple
    rw [importedBy_cons_of_covers rfl, List.map_cons]
    simp only [importedNames_deep_eq_ok_iff hs, ih hsimple, List.forall₂_cons_left_iff]
    constructor
    · rintro ⟨first, _, hfirst, ⟨found, hfound, rfl⟩, rfl⟩
      exact ⟨first :: found, ⟨first, found, hfirst, hfound, rfl⟩, rfl⟩
    · rintro ⟨_, ⟨first, found, hfirst, hfound, rfl⟩, rfl⟩
      exact ⟨first, _, hfirst, ⟨found, hfound, rfl⟩, rfl⟩

theorem importedBy_map_later {k : Nat} {ss : List Statement} :
    importedBy scope (ss.map (Statement.later k)) = .ok names ↔
      importedBy scope ss = .ok names := by
  induction ss generalizing names with
  | nil => rfl
  | cons s ss ih =>
    have hlater : scope.covers (s.later k) = scope.covers s := rfl
    rw [List.map_cons]
    cases hcovers : scope.covers s with
    | false =>
      rw [importedBy_cons_of_not_covers hcovers,
        importedBy_cons_of_not_covers (hlater.trans hcovers), ih]
    | true =>
      rw [importedBy_cons_of_covers hcovers, importedBy_cons_of_covers (hlater.trans hcovers)]
      simp only [ih]
      rfl

namespace Block

variable {ss : List Statement}

theorem ofTokens?_eq_none (hword : word ∈ Token.compoundWords) (ts : List Token) :
    Import.ofTokens? (.name word :: ts) = none := by
  rw [Import.ofTokens?_eq_none_iff]
  constructor
  · rintro ⟨⟩
    exact absurd hword (by decide)
  · rintro ⟨⟩
    exact absurd hword (by decide)

theorem importedBy_topLevel (h : Block word header clauses ss)
    (hword : word ∈ Token.compoundWords) : importedBy .topLevel ss = .ok [] := by
  cases h with
  | @mk s ss first htop htokens hnested =>
    have hfirst : importedNames .topLevel s.tokens = .ok [] :=
      importedNames_topLevel_of_none (htokens ▸ ofTokens?_eq_none hword _)
    refine (importedBy_cons_of_covers (by simpa [Scope.covers] using htop)).mpr
      ⟨[], [], hfirst, ?_, rfl⟩
    induction ss with
    | nil => rfl
    | cons t ss ih =>
      obtain ⟨ht, hnested⟩ := List.forall_mem_cons.mp hnested
      rw [importedBy_cons_of_not_covers (by simp [Scope.covers, Statement.isTopLevel, ht])]
      exact ih hnested

theorem importedBy_deep_eq_ok_iff (h : Block word header clauses ss)
    (hword : word ∈ Token.compoundWords) (hheader : Header header)
    (hsimple : ∀ ts ∈ clauses, Simple ts) :
    importedBy .deep ss = .ok names ↔
      ∃ found, List.Forall₂ Asks clauses found ∧ found.flatten = names := by
  cases h with
  | @mk s ss first htop htokens hnested =>
    obtain ⟨hfirst, hfurther⟩ := List.forall_mem_cons.mp hsimple
    have hbody : importedNames .deep s.tokens = importedNames .deep first := by
      rw [htokens]
      exact importedNames_of_blockBody (ofTokens?_eq_none hword _)
        (by simpa [Token.startsCompound] using hword)
        (Token.blockBody_of_header hheader hfirst.ne_nil hfirst.head_ne)
    have hss : ∀ ts ∈ (({ s with tokens := first } :: ss : List Statement).map Statement.tokens),
        Token.startsCompound ts = false :=
      List.forall_mem_cons.mpr ⟨hfirst.not_compound, fun ts hts ↦ (hfurther ts hts).not_compound⟩
    rw [importedBy_cons_of_covers rfl, hbody]
    exact (importedBy_cons_of_covers rfl).symm.trans (Source.importedBy_deep_eq_ok_iff hss)

/-- Deep scope accepts a block unless one of its clauses is a malformed import. -/
theorem exists_importedBy_deep_iff (h : Block word header clauses ss)
    (hword : word ∈ Token.compoundWords) (hheader : Header header)
    (hsimple : ∀ ts ∈ clauses, Simple ts) :
    (∃ asked, importedBy .deep ss = .ok asked) ↔ ∀ ts ∈ clauses, ¬Malformed ts := by
  simp only [h.importedBy_deep_eq_ok_iff hword hheader hsimple, malformed_iff, not_not,
    ← exists_forall₂_iff]
  constructor
  · rintro ⟨_, found, hfound, -⟩
    exact ⟨found, hfound⟩
  · rintro ⟨found, hfound⟩
    exact ⟨_, found, hfound, rfl⟩

end Block

/-! ## Between sources -/

/-- What may stand on the lines before: nothing, or a source that is accepted also with the blanks
at its end, for the same names. -/
inductive Before (found : Scope → List String) : List Char → Prop
  | nothing (h : ∀ scope, found scope = []) : Before found []
  | source {text : List Char} {ss : List Statement}
      (h : ∀ scope, imports scope (String.ofList text) = .ok (found scope))
      (hss : statements text = .ok ss) (hfound : ∀ scope, importedBy scope ss = .ok (found scope)) :
      Before found (text ++ ['\n'])

/-- A source that is accepted in both scopes falls into the same statements for both. -/
theorem exists_statements_of_imports {text : List Char} {found : Scope → List String}
    (h : ∀ scope, imports scope (String.ofList text) = .ok (found scope)) :
    ∃ ss, statements (trimEnd text) = .ok ss ∧
      ∀ scope, importedBy scope ss = .ok (found scope) := by
  obtain ⟨ss, hss, -⟩ := imports_eq_ok_iff.mp (h .deep)
  refine ⟨ss, by rwa [String.toList_ofList] at hss, fun scope ↦ ?_⟩
  obtain ⟨ss', hss', hfound⟩ := imports_eq_ok_iff.mp (h scope)
  obtain rfl := Except.ok.inj (hss.symm.trans hss')
  exact hfound

theorem Before.of_trimEnd_eq {text : List Char} {found : Scope → List String}
    (htrim : trimEnd text = text)
    (h : ∀ scope, imports scope (String.ofList text) = .ok (found scope)) :
    Before found (text ++ ['\n']) := by
  obtain ⟨ss, hss, hfound⟩ := exists_statements_of_imports h
  exact .source h (htrim ▸ hss) hfound

/-- Behind a source that ends with its line another one is read on its own. -/
theorem exists_statements_append_line {ss₁ ss₂ : List Statement} (h₁ : statements front = .ok ss₁)
    (h₂ : statements back = .ok ss₂) (hmark : back.head? ≠ some '\uFEFF') :
    ∃ k, statements (front ++ '\n' :: back) = .ok (ss₁ ++ ss₂.map (Statement.later k)) := by
  obtain ⟨b, hrun, hwaiting, rfl⟩ := statements_eq_ok_iff.mp h₂
  rw [withoutMark_of_head hmark] at hrun
  refine ⟨1 + front.count '\n', statements_eq_ok_iff.mpr
    ⟨b.later (1 + front.count '\n') ss₁.reverse, ?_, ?_, ?_⟩⟩
  · rw [run_append_line h₁, hrun]
  · rw [Assembly.later, hwaiting, List.map_nil]
  · rw [Assembly.settled_later, List.reverse_append, List.reverse_reverse, ← List.map_reverse]

theorem statements_nil : statements [] = .ok [] := by
  rw [statements, withoutMark_of_head (by simp), lexemes]
  rfl

theorem Block.map_later {ss : List Statement} (h : Block word header clauses ss) (k : Nat) :
    Block word header clauses (ss.map (Statement.later k)) := by
  cases h with
  | @mk s ss first htop htokens hnested =>
    have hmap : ss.map Statement.tokens = (ss.map (Statement.later k)).map Statement.tokens := by
      rw [List.map_map]
      rfl
    rw [hmap]
    exact .mk htop htokens (by simpa [Statement.later] using hnested)

variable {a b : Scope → List String}

/-- What stands behind is read on its own, and what stands before asks for its names. -/
theorem Before.exists_statements (hbefore : Before a front) {ss : List Statement}
    (h : statements back = .ok ss) (hmark : back.head? ≠ some '\uFEFF') :
    ∃ earlier k, statements (front ++ back) = .ok (earlier ++ ss.map (Statement.later k)) ∧
      ∀ scope, importedBy scope earlier = .ok (a scope) := by
  cases hbefore with
  | nothing ha =>
    refine ⟨[], 0, ?_, fun scope ↦ ha scope ▸ rfl⟩
    rwa [show Statement.later 0 = id from rfl, List.map_id]
  | @source text earlier _ hearlier ha =>
    obtain ⟨k, hk⟩ := exists_statements_append_line hearlier h hmark
    exact ⟨earlier, k, by rwa [List.append_assoc], ha⟩

/-- The statements of the line stand between those of the two sources. -/
theorem exists_statements_of_oneLine (hbefore : Before a front)
    (hline : OneLine line word header clauses)
    (hafter : ∀ scope, imports scope (String.ofList back) = .ok (b scope))
    (hmark : back.head? ≠ some '\uFEFF')
    (hcut : (∀ c ∈ back, isBlank c = true) → OneLine (trimEnd line) word header clauses) :
    ∃ earlier ss later, statements (trimEnd (front ++ line ++ '\n' :: back)) =
      .ok (earlier ++ ss ++ later) ∧
      (∀ scope, importedBy scope earlier = .ok (a scope)) ∧ Block word header clauses ss ∧
      ∀ scope, importedBy scope later = .ok (b scope) := by
  obtain ⟨us, hus, hb⟩ := exists_statements_of_imports hafter
  by_cases hblank : trimEnd back = []
  · -- Only blanks follow the line, and they are cut off with those at its end.
    have hall := trimEnd_eq_nil_iff.mp hblank
    have hcut := hcut hall
    obtain ⟨ss, hss, hblock⟩ := hcut.exists_statements
    obtain ⟨earlier, k, hearlier, ha⟩ := hbefore.exists_statements hss hcut.head?_ne.2
    have htrim : trimEnd (front ++ line ++ '\n' :: back) = front ++ trimEnd line := by
      have hend : trimEnd ('\n' :: back) = [] :=
        trimEnd_eq_nil_iff.mpr (List.forall_mem_cons.mpr ⟨by decide, hall⟩)
      rw [trimEnd_append, if_pos hend, trimEnd_append, if_neg hcut.head?_ne.1]
    rw [hblank, statements_nil] at hus
    obtain rfl := Except.ok.inj hus
    exact ⟨earlier, _, [], by rw [htrim, List.append_nil, hearlier], ha, hblock.map_later k, hb⟩
  · obtain ⟨ss, hss, hblock⟩ := hline.exists_statements
    obtain ⟨j, hj⟩ := exists_statements_append_line hss hus (by rwa [head?_trimEnd hblank])
    have hhead : (line ++ '\n' :: trimEnd back).head? ≠ some '\uFEFF' := by
      rw [List.head?_append_of_ne_nil _ hline.head?_ne.1]
      exact hline.head?_ne.2
    obtain ⟨earlier, k, hearlier, ha⟩ := hbefore.exists_statements hj hhead
    have htrim :
        trimEnd (front ++ line ++ '\n' :: back) = front ++ (line ++ '\n' :: trimEnd back) := by
      have hend : trimEnd ('\n' :: back) = '\n' :: trimEnd back := by
        rw [← List.singleton_append, trimEnd_append, if_neg hblank]
        rfl
      rw [trimEnd_append, if_neg (hend ▸ List.cons_ne_nil _ _), hend, List.append_assoc]
    refine ⟨earlier, _, (us.map (Statement.later j)).map (Statement.later k), ?_, ha,
      hblock.map_later k, fun scope ↦ ?_⟩
    · rw [htrim, hearlier, List.map_append, List.append_assoc]
    · exact importedBy_map_later.mpr (importedBy_map_later.mpr (hb scope))

theorem imports_between_iff {source : String} {earlier ss later : List Statement}
    {found₁ found₂ : List String}
    (h : statements (trimEnd source.toList) = .ok (earlier ++ ss ++ later))
    (h₁ : importedBy scope earlier = .ok found₁) (h₂ : importedBy scope later = .ok found₂) :
    imports scope source = .ok names ↔
      ∃ asked, importedBy scope ss = .ok asked ∧ found₁ ++ asked ++ found₂ = names := by
  rw [imports_eq_ok_iff, h]
  simp only [Except.ok.injEq, exists_eq_left', importedBy_append_eq_ok_iff, h₁, h₂]
  constructor
  · rintro ⟨_, _, ⟨_, asked, rfl, hasked, rfl⟩, rfl, rfl⟩
    exact ⟨asked, hasked, rfl⟩
  · rintro ⟨asked, hasked, rfl⟩
    exact ⟨_, _, ⟨_, asked, rfl, hasked, rfl⟩, rfl, rfl⟩

theorem exists_error_iff {ε α : Type} {x : Except ε α} : (∃ e, x = .error e) ↔ ¬∃ v, x = .ok v := by
  cases x <;> simp

/-- **A compound statement on one line hides its block from top-level scope, and nothing else.**
Between two sources it asks for nothing there. Deep scope refuses it if one of the statements of its
block is a malformed import, and otherwise finds their names in order, between those of the source
before and those of the source after. -/
theorem imports_of_oneLine (hbefore : Before a front) (hline : OneLine line word header clauses)
    (hafter : ∀ scope, imports scope (String.ofList back) = .ok (b scope))
    (hmark : back.head? ≠ some '\uFEFF')
    (hcut : (∀ c ∈ back, isBlank c = true) → OneLine (trimEnd line) word header clauses) :
    let source := String.ofList (front ++ line ++ '\n' :: back)
    imports .topLevel source = .ok (a .topLevel ++ b .topLevel) ∧
      ((∃ e, imports .deep source = .error e) ↔ ∃ ts ∈ clauses, Malformed ts) ∧
      ((∀ ts ∈ clauses, ¬Malformed ts) → ∃ found, List.Forall₂ Asks clauses found ∧
        imports .deep source = .ok (a .deep ++ found.flatten ++ b .deep)) := by
  intro source
  obtain ⟨earlier, ss, later, hstatements, ha, hblock, hb⟩ :=
    exists_statements_of_oneLine hbefore hline hafter hmark hcut
  rw [← String.toList_ofList (l := front ++ line ++ '\n' :: back)] at hstatements
  have hscope {scope : Scope} {names : List String} :=
    @imports_between_iff scope names source _ _ _ _ _ hstatements (ha scope) (hb scope)
  have htop := hblock.importedBy_topLevel hline.word_mem
  have hdeep := hblock.exists_importedBy_deep_iff hline.word_mem hline.isHeader hline.simple
  refine ⟨hscope.mpr ⟨[], htop, by rw [List.append_nil]⟩, ?_, fun h ↦ ?_⟩
  · have hok : (∃ names, imports .deep source = .ok names) ↔ ∀ ts ∈ clauses, ¬Malformed ts := by
      simp only [hscope, ← hdeep]
      constructor
      · rintro ⟨_, asked, hasked, -⟩
        exact ⟨asked, hasked⟩
      · rintro ⟨asked, hasked⟩
        exact ⟨_, asked, hasked, rfl⟩
    rw [exists_error_iff, hok]
    simp
  · obtain ⟨asked, hasked⟩ := hdeep.mpr h
    obtain ⟨found, hfound, rfl⟩ :=
      (hblock.importedBy_deep_eq_ok_iff hline.word_mem hline.isHeader hline.simple).mp hasked
    exact ⟨found, hfound, hscope.mpr ⟨_, hasked, rfl⟩⟩

/-- A colon in brackets before the one that opens the block, and two imports behind it. -/
theorem imports_of_oneLine_slice :
    let a : Scope → List String := fun _ ↦ ["a"]
    let b : Scope → List String := fun _ ↦ ["d"]
    let front := "import a".toList ++ ['\n']
    let line := "if x[:]: import b; import c".toList
    let header : List Token := [.name "x", .opening .square, .colon, .closing .square]
    let clauses : List (List Token) := [[.name "import", .name "b"], [.name "import", .name "c"]]
    let back := "import d".toList
    let source := String.ofList (front ++ line ++ '\n' :: back)
    Before a front ∧ OneLine line "if" header clauses ∧
    (∀ scope, imports scope (String.ofList back) = .ok (b scope)) ∧
      back.head? ≠ some '\uFEFF' ∧
        ((∀ c ∈ back, isBlank c = true) → OneLine (trimEnd line) "if" header clauses) ∧
      imports .topLevel source = .ok ["a", "d"] ∧
      ((∃ e, imports .deep source = .error e) ↔ ∃ ts ∈ clauses, Malformed ts) ∧
      ((∀ ts ∈ clauses, ¬Malformed ts) → ∃ found, List.Forall₂ Asks clauses found ∧
        imports .deep source = .ok (["a"] ++ found.flatten ++ ["d"])) := by
  intro a b front line header clauses back source
  have hbefore : Before a front := .of_trimEnd_eq (by decide) (by rintro (_ | _) <;> decide +kernel)
  have hreads :
      Reads line none
        (.token (.name "if") :: ([.blank, .token (.name "x"), .token (.opening .square),
      .token .colon, .token (.closing .square)] ++ .token .colon ::
      ([.blank, .token (.name "import"), .blank,
      .token (.name "b")] ++ .semicolon ::
        [.blank, .token (.name "import"), .blank, .token (.name "c")]))) :=
    reads_of_lexemes (by decide +kernel) (by simp)
  have hclause (n : String) :
      Phrase false [.blank, .token (.name "import"), .blank, .token (.name n)]
      [.name "import", .name n] :=
    .space (.inl rfl) (.token rfl (.space (.inl rfl) (.token rfl .nil)))
  have hsimple : ∀ ts ∈ clauses, Simple ts :=
    List.forall_mem_cons.mpr
      ⟨⟨by simp, by simp, rfl⟩, List.forall_mem_singleton.mpr ⟨by simp, by simp, rfl⟩⟩
  have hline : OneLine line "if" header clauses :=
    ⟨by decide, .cons rfl (by simp) (.enclosed .square (.cons rfl .nil) .nil), hsimple, _, _,
      hreads, .space (.inl rfl) (.token rfl (.enclosed .square (.token rfl .nil) .nil)),
      .cons (hclause "b") (.single (hclause "c"))⟩
  have hafter : ∀ scope, imports scope (String.ofList back) = .ok (b scope) := by
    rintro (_ | _) <;> decide +kernel
  have hcut : (∀ c ∈ back, isBlank c = true) → OneLine (trimEnd line) "if" header clauses := fun _ ↦
    (show trimEnd line = line by decide) ▸ hline
  exact ⟨hbefore, hline, hafter, by decide, hcut,
    imports_of_oneLine hbefore hline hafter (by decide) hcut⟩

/-- What is cut off at an end of a source alone is part of it between others. A vertical tab is a
token behind the names of an import, a byte order mark is one before them, and a backslash ends no
line without the line end. -/
theorem imports_of_oneLine_ends :
    OneLine "if x: y".toList "if" [.name "x"] [[.name "y"]] ∧
      OneLine "if x: y\\\n".toList "if" [.name "x"] [[.name "y"]] ∧
      (∀ scope, imports scope "" = .ok []) ∧
      ((∀ scope, imports scope "import a\x0b" = .ok ["a"]) ∧
        (imports .topLevel "import a\x0b\nif x: y\n").toOption = none) ∧
      ((∀ scope, imports scope "\uFEFFimport b" = .ok ["b"]) ∧
        imports .topLevel "\nif x: y\n\uFEFFimport b" = .ok []) ∧
      (imports .topLevel "\nif x: y\\\n\n").toOption = none := by
  have hheader : Phrase false [.blank, .token (.name "x")] [.name "x"] :=
    .space (.inl rfl) (.token rfl .nil)
  have honeLine {line : List Char} {bs : List Lexeme} (hbs : Phrase false bs [.name "y"])
      (hreads : Reads line none
        (.token (.name "if") :: ([.blank, .token (.name "x")] ++ .token .colon :: bs))) :
      OneLine line "if" [.name "x"] [[.name "y"]] :=
    ⟨by decide, .cons rfl (by simp) .nil, List.forall_mem_singleton.mpr ⟨by simp, by simp, rfl⟩, _,
      _, hreads, hheader, .single hbs⟩
  have hy : Phrase false [.blank, .token (.name "y")] [.name "y"] :=
    .space (.inl rfl) (.token rfl .nil)
  have hy' : Phrase false [.blank, .token (.name "y"), .continuation] [.name "y"] :=
    .space (.inl rfl) (.token rfl (.space (.inr (.inr (.inr rfl))) .nil))
  refine ⟨honeLine hy (reads_of_lexemes (by decide +kernel) (by simp)),
    honeLine hy' (reads_of_lexemes (by decide +kernel) (by simp)), ?_, ⟨?_, by decide +kernel⟩,
    ⟨?_, by decide +kernel⟩, by decide +kernel⟩
  all_goals rintro (_ | _) <;> decide +kernel

end ModuleReload.Source
