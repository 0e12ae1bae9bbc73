import ModuleReload.Proofs.Source.Compound
import ModuleReload.Settings.Basic

/-!
# Names that can be imported

A text is a dotted name if each of its parts is a name by the characters in it. Read as a source,
such a text is names and dots in turn: no part marks a literal, since no quote follows it, and no
dot begins a number, since no part begins with a digit. So behind the word `import` it is one
module, and that module has this name.

No other text is imported by its own name. What an import statement asks for is put together from
names that the lexer has found (`isPart_of_mem_statements`), and the first statement of a source
that begins with the word is such a statement whatever stands further down (`Assembly.Opens`). So
the names that settings accept for the modules to look after are those that a source can ask for
(`Name.isDotted_iff_imports`).
-/

namespace ModuleReload.Source

open Text ModuleReload.Source.Grammar

/-! ## The characters of names -/

theorem continuesName_of_isBlank {c : Char} (h : isBlank c = true) : continuesName c = false := by
  have hcodes : ∀ n ∈ List.range' 9 5 ++ [0x20, 0x85, 0xA0, 0x1680] ++ List.range' 0x2000 11 ++
      [0x2028, 0x2029, 0x202F, 0x205F, 0x3000], continuesName (Char.ofNat n) = false := by
        decide +kernel
  have hmem : c.toNat ∈ List.range' 9 5 ++ [0x20, 0x85, 0xA0, 0x1680] ++ List.range' 0x2000 11 ++
      [0x2028, 0x2029, 0x202F, 0x205F, 0x3000] := by
    simp only [isBlank, Bool.or_eq_true, Bool.and_eq_true, decide_eq_true_eq, beq_iff_eq] at h
    simp only [List.mem_append, List.mem_range'_1, List.mem_cons, List.not_mem_nil, or_false]
    omega
  have := hcodes _ hmem
  rwa [Char.ofNat_toNat] at this

theorem isPart_iff {n : String} :
    Name.isPart n = true ↔ ∃ c cs, n.toList = c :: cs ∧ startsName c = true ∧
      cs.all continuesName = true := by
  rw [Name.isPart]
  cases n.toList with
  | nil => simp
  | cons c cs =>
    have hc : startsName c = true → continuesName c = true := continuesName_of_startsName
    simp only [List.head?_cons, Option.any_some, List.all_cons, Bool.and_eq_true, List.cons.injEq]
    constructor
    · rintro ⟨hstart, -, hall⟩
      exact ⟨c, cs, ⟨rfl, rfl⟩, hstart, hall⟩
    · rintro ⟨_, _, ⟨rfl, rfl⟩, hstart, hall⟩
      exact ⟨hstart, hc hstart, hall⟩

theorem dot_notMem_of_isPart {n : String} (h : Name.isPart n = true) : '.' ∉ n.toList := by
  intro hmem
  rw [Name.isPart, Bool.and_eq_true] at h
  exact absurd (List.all_eq_true.mp h.2 _ hmem) (by decide)

/-! ## Dotted names as sources -/

theorem phrase_of_tokens {inside : Bool} {ts : List Token} (h : ∀ t ∈ ts, t.isBracket = false) :
    Phrase inside (ts.map .token) ts := by
  induction ts with
  | nil => exact .nil
  | cons t ts ih =>
    obtain ⟨ht, hts⟩ := List.forall_mem_cons.mp h
    exact .token ht (ih hts)

theorem exists_reads_of_parts {parts : List String} (hne : parts ≠ [])
    (h : ∀ p ∈ parts, Name.isPart p = true) :
    ∃ ts, Reads (paste '.' parts).toList none (ts.map .token) ∧ Dotted ts parts ∧
      (paste '.' parts).toList.head?.any startsName = true := by
  induction parts with
  | nil => exact absurd rfl hne
  | cons p parts ih =>
    obtain ⟨hp, hparts⟩ := List.forall_mem_cons.mp h
    obtain ⟨c, cs, hcs, hc, hall⟩ := isPart_iff.mp hp
    have hname : p = String.ofList (c :: cs) := by rw [← hcs, String.ofList_toList]
    cases parts with
    | nil =>
      refine ⟨[.name p], ?_, .single p, ?_⟩
      · rw [paste_singleton, hcs, hname]
        exact .single (.name hc hall rfl (by simp))
      · rw [paste_singleton, hcs]
        exact hc
    | cons q parts =>
      obtain ⟨ts, hreads, hdotted, hhead⟩ := ih (List.cons_ne_nil _ _) hparts
      have htext :
          (paste '.' (p :: q :: parts)).toList =
            (c :: cs) ++ (['.'] ++ (paste '.' (q :: parts)).toList) := by
        rw [paste_cons '.' p (List.cons_ne_nil _ _), String.toList_append, String.toList_append,
          hcs, String.toList_ofList, List.append_assoc]
      refine ⟨.name p :: .dot :: ts, ?_, .cons p hdotted, ?_⟩
      · -- The next part begins with no digit, so the dot is one.
        have hdot : Spells ['.'] ((paste '.' (q :: parts)).toList.head?.or none) (.token .dot) := by
          refine .mark (by decide) fun _ ↦ ?_
          cases hd : (paste '.' (q :: parts)).toList.head? with
          | none => rfl
          | some d =>
            rw [hd] at hhead
            exact isDigit_of_startsName hhead
        rw [htext, hname]
        have hend : (some '.').any continuesName = false := by decide
        exact .cons (.name hc hall hend (by simp [isQuote])) (.cons hdot hreads)
      · rw [htext]
        exact hc

theorem trimEnd_append_of_parts {parts : List String} (hne : parts ≠ [])
    (h : ∀ p ∈ parts, Name.isPart p = true) (front : List Char) :
    trimEnd (front ++ (paste '.' parts).toList) = front ++ (paste '.' parts).toList := by
  obtain ⟨inner, last, rfl⟩ := (List.eq_nil_or_concat parts).resolve_left hne
  rw [List.concat_eq_append] at h ⊢
  have hlast := h last (by simp)
  obtain ⟨c, cs, hcs, hc, hall⟩ := isPart_iff.mp hlast
  obtain ⟨init, d, hd⟩ := (List.eq_nil_or_concat (c :: cs)).resolve_left (List.cons_ne_nil _ _)
  have hblank : isBlank d = false := by
    rw [Bool.eq_false_iff]
    intro hblank
    have hmem : d ∈ c :: cs := hd ▸ by simp
    have hcontinues : continuesName d = true := by
      rcases List.mem_cons.mp hmem with rfl | hmem
      · exact continuesName_of_startsName hc
      · exact List.all_eq_true.mp hall _ hmem
    rw [continuesName_of_isBlank hblank] at hcontinues
    exact absurd hcontinues (by decide)
  have htext : ∃ outer, (paste '.' (inner ++ [last])).toList = outer ++ [d] := by
    rw [List.concat_eq_append] at hd
    by_cases hinner : inner = []
    · exact ⟨init, by rw [hinner, List.nil_append, paste_singleton, hcs, hd]⟩
    · refine ⟨(paste '.' inner).toList ++ ['.'] ++ init, ?_⟩
      rw [paste_concat '.' hinner, String.toList_append, String.toList_append, hcs, hd,
        String.toList_ofList]
      simp only [List.append_assoc]
  obtain ⟨outer, houter⟩ := htext
  rw [houter, ← List.append_assoc, trimEnd_append_cons hblank, trimEnd]

theorem statements_import_of_parts {parts : List String} (hne : parts ≠ [])
    (h : ∀ p ∈ parts, Name.isPart p = true) :
    ∃ ts, Dotted ts parts ∧
      statements (['i', 'm', 'p', 'o', 'r', 't', ' '] ++ (paste '.' parts).toList) =
      .ok [⟨1, false, false, .name "import" :: ts⟩] := by
  obtain ⟨ts, hreads, hdotted, -⟩ := exists_reads_of_parts hne h
  refine ⟨ts, hdotted, ?_⟩
  have hbrackets : ∀ t ∈ ts, t.isBracket = false := by
    intro t ht
    rcases hdotted.name_or_dot t ht with rfl | ⟨n, rfl⟩ <;> rfl
  have hphrase : Phrase false (ts.map .token) ts := phrase_of_tokens hbrackets
  have hwhole : Reads (['i', 'm', 'p', 'o', 'r', 't', ' '] ++ (paste '.' parts).toList) none
      (.token (.name "import") :: .blank :: ts.map .token) :=
    @Reads.cons ['i', 'm', 'p', 'o', 'r', 't'] _ _ _ _ spells_import
      (.cons (.blank (.inl rfl) _) hreads)
  let begun : Assembly := ⟨[], ⟨1, false, false, [.name "import"]⟩, [], false⟩
  have hrun : Assembly.start.run (numbered 1 (.token (.name "import") :: .blank :: ts.map .token)) =
      .ok (begun.extended ts) := by
    rw [Assembly.run_of_step (b := begun) rfl, Assembly.run_of_step (b := begun) rfl]
    exact Assembly.run_phrase hphrase rfl (by simp) _
  refine statements_eq_ok_iff.mpr ⟨begun.extended ts, ?_, rfl, ?_⟩
  · rw [withoutMark_of_head (by simp), hwhole.lexemes_eq, hrun]
  · rw [Assembly.settled_extended (by simp [begun])]
    rfl

/-! ## The tokens of statements -/

namespace Assembly

variable {a b : Assembly} {P : Token → Prop} {line : Nat} {l : Lexeme} {t : Token}

/-- Something holds of every token that has been collected. -/
def Holds (P : Token → Prop) (a : Assembly) : Prop :=
  ∀ s ∈ a.settled, ∀ t ∈ s.tokens, P t

theorem holds_iff :
    a.Holds P ↔ (∀ s ∈ a.complete, ∀ t ∈ s.tokens, P t) ∧ ∀ t ∈ a.draft.tokens, P t := by
  rw [Holds, settled]
  split
  next h => simp [List.isEmpty_iff.mp h]
  next h => simp [and_comm]

theorem step_cases (h : a.step line l = .ok b) :
    (∃ k indented nested fresh, b = ⟨a.settled, begun k indented nested, [], fresh⟩) ∨
      (b.complete = a.complete ∧ b.fresh = false ∧ b.draft.nested = a.draft.nested ∧
        (a.fresh = false → b.draft.indented = a.draft.indented) ∧
        ∃ new, b.draft.tokens = new ++ a.draft.tokens ∧ ∀ t ∈ new, t = .other ∨ l = .token t) := by
  cases l with
  | blank =>
    obtain rfl := Except.ok.inj h
    exact .inr ⟨rfl, rfl, rfl, fun hfresh ↦ by simp [hfresh], [], rfl, by simp⟩
  | carriageReturn | comment | continuation =>
    obtain rfl := Except.ok.inj h
    exact .inr ⟨rfl, rfl, rfl, fun _ ↦ rfl, [], rfl, by simp⟩
  | malformed fault => simp [step] at h
  | lineEnd =>
    rw [step] at h
    split at h
    · exact .inl ⟨_, _, _, _, (Except.ok.inj h).symm⟩
    · obtain rfl := Except.ok.inj h
      exact .inr ⟨rfl, rfl, rfl, fun _ ↦ rfl, [], rfl, by simp⟩
  | semicolon =>
    rw [step] at h
    split at h
    · exact .inl ⟨_, _, _, _, (Except.ok.inj h).symm⟩
    · obtain rfl := Except.ok.inj h
      exact .inr ⟨rfl, rfl, rfl, fun _ ↦ rfl, [.other], rfl, by simp⟩
  | token t =>
    refine .inr ?_
    cases t with
    | closing c =>
      cases hwaiting : a.waiting with
      | nil => simp [step, hwaiting] at h
      | cons w waiting =>
        simp only [step, hwaiting] at h
        split at h
        · obtain rfl := Except.ok.inj h
          exact ⟨rfl, rfl, rfl, fun _ ↦ rfl, [.closing c], rfl, by simp⟩
        · simp at h
    | _ =>
      obtain rfl := Except.ok.inj h
      exact ⟨rfl, rfl, rfl, fun _ ↦ rfl, [_], rfl, by simp⟩

theorem settled_of_nil (h : a.draft.tokens = []) : a.settled = a.complete := by
  rw [settled, h]
  rfl

/-- Nothing is collected but tokens that are read, and semicolons in brackets. -/
theorem Holds.step (h : a.Holds P) (hother : P .other) (hl : ∀ t, l = .token t → P t)
    (hstep : a.step line l = .ok b) : b.Holds P := by
  obtain ⟨k, indented, nested, fresh, rfl⟩ | ⟨hcomplete, -, -, -, new, htokens, hnew⟩ :=
    step_cases hstep
  · rw [Holds, settled_of_nil rfl]
    exact h
  · rw [holds_iff] at h ⊢
    rw [hcomplete, htokens]
    refine ⟨h.1, List.forall_mem_append.mpr ⟨fun t ht ↦ ?_, h.2⟩⟩
    rcases hnew t ht with rfl | ht
    · exact hother
    · exact hl t ht

theorem Holds.run {ls : List (Nat × Lexeme)} (h : a.Holds P) (hother : P .other)
    (hls : ∀ l ∈ ls, ∀ t, l.2 = .token t → P t) (hrun : a.run ls = .ok b) : b.Holds P := by
  induction ls generalizing a with
  | nil => exact Except.ok.inj hrun ▸ h
  | cons l ls ih =>
    obtain ⟨hl, hls⟩ := List.forall_mem_cons.mp hls
    rw [run_cons] at hrun
    obtain ⟨a', hstep, hrun⟩ := bind_eq_ok_iff.mp hrun
    exact ih (h.step hother hl hstep) hls hrun

/-- The first complete statement, or the draft if there is none, stands outside every block and
begins with the token. -/
structure Opens (t : Token) (a : Assembly) : Prop where
  first : ∃ s, a.settled.getLast? = some s ∧ s.isTopLevel = true ∧ s.tokens.head? = some t
  begun : a.complete = [] → a.fresh = false

/-- Either nothing more happens to the first statement, or it is the draft. -/
theorem Opens.cases (h : a.Opens t) :
    (∃ s, a.complete.getLast? = some s ∧ s.isTopLevel = true ∧ s.tokens.head? = some t) ∨
      (a.complete = [] ∧ a.fresh = false ∧ a.draft.isTopLevel = true ∧
        a.draft.tokens.getLast? = some t) := by
  obtain ⟨s, hs, htop, hhead⟩ := h.first
  rw [settled] at hs
  split at hs
  case isTrue => exact .inl ⟨s, hs, htop, hhead⟩
  case isFalse =>
    cases hcomplete : a.complete with
    | nil =>
      rw [hcomplete, List.getLast?_singleton] at hs
      obtain rfl := Option.some.inj hs
      exact .inr ⟨rfl, h.begun hcomplete, htop, by simpa using hhead⟩
    | cons first rest =>
      rw [hcomplete, List.getLast?_cons_cons] at hs
      exact .inl ⟨s, hs, htop, hhead⟩

theorem opens_of_complete {s : Statement} (hs : a.complete.getLast? = some s)
    (htop : s.isTopLevel = true) (hhead : s.tokens.head? = some t) : a.Opens t where
  first := by
    refine ⟨s, ?_, htop, hhead⟩
    rw [settled]
    split
    · exact hs
    · rw [List.getLast?_cons, hs, Option.getD_some]
  begun hnil := by simp [hnil] at hs

theorem opens_of_draft (hcomplete : a.complete = []) (hfresh : a.fresh = false)
    (htop : a.draft.isTopLevel = true) (hlast : a.draft.tokens.getLast? = some t) : a.Opens t where
  first := by
    have hne : a.draft.tokens.isEmpty = false := by
      cases htokens : a.draft.tokens with
      | nil => simp [htokens] at hlast
      | cons u us => rfl
    refine ⟨{ a.draft with tokens := a.draft.tokens.reverse }, ?_, htop, by simpa using hlast⟩
    rw [settled, hne, hcomplete]
    rfl
  begun _ := hfresh

/-- The first statement begins as it does, whatever else is read. -/
theorem Opens.step (h : a.Opens t) (hstep : a.step line l = .ok b) : b.Opens t := by
  obtain ⟨k, indented, nested, fresh, rfl⟩ |
      ⟨hcomplete, hfresh, hnested, hindented, new, htokens, -⟩ :=
    step_cases hstep
  · obtain ⟨s, hs, htop, hhead⟩ := h.first
    exact opens_of_complete hs htop hhead
  · obtain ⟨s, hs, htop, hhead⟩ | ⟨hnil, hbegun, htop, hlast⟩ := h.cases
    · exact opens_of_complete (hcomplete ▸ hs) htop hhead
    · refine opens_of_draft (hcomplete.trans hnil) hfresh ?_ ?_
      · rwa [Statement.isTopLevel, hindented hbegun, hnested]
      · rw [htokens, List.getLast?_append, hlast, Option.some_or]

theorem Opens.run {ls : List (Nat × Lexeme)} (h : a.Opens t) (hrun : a.run ls = .ok b) :
    b.Opens t := by
  induction ls generalizing a with
  | nil => exact Except.ok.inj hrun ▸ h
  | cons l ls ih =>
    rw [run_cons] at hrun
    obtain ⟨a', hstep, hrun⟩ := bind_eq_ok_iff.mp hrun
    exact ih (h.step hstep) hrun

end Assembly

theorem mark_ne_name (c : Char) (n : String) : mark c ≠ .name n := by
  rw [mark.eq_def]
  split
  · simp
  · simp
  · split <;> simp

theorem Spells.isPart {text : List Char} {next : Option Char} {n : String}
    (h : Spells text next (.token (.name n))) : Name.isPart n = true := by
  generalize hl : Lexeme.token (.name n) = l at h
  cases h with
  | @name c cs hc hall =>
    obtain rfl := Token.name.inj (Lexeme.token.inj hl)
    exact isPart_iff.mpr ⟨c, cs, String.toList_ofList, hc, hall⟩
  | @mark c => exact absurd (Lexeme.token.inj hl).symm (mark_ne_name c n)
  | _ => simp at hl

theorem Reads.isPart {text : List Char} {next : Option Char} {ls : List Lexeme}
    (h : Reads text next ls) {n : String} (hn : .token (.name n) ∈ ls) : Name.isPart n = true := by
  induction h with
  | nil => simp at hn
  | cons h _ ih =>
    rcases List.mem_cons.mp hn with rfl | hn
    · exact h.isPart
    · exact ih hn

theorem isPart_of_mem_statements {source : List Char} {ss : List Statement}
    (h : statements source = .ok ss) {s : Statement} (hs : s ∈ ss) {n : String}
    (hn : .name n ∈ s.tokens) : Name.isPart n = true := by
  obtain ⟨a, hrun, -, rfl⟩ := statements_eq_ok_iff.mp h
  obtain ⟨ls, hreads, hls⟩ := exists_reads (Assembly.not_malformed_of_run hrun)
  have hstart : Assembly.start.Holds fun t ↦ ∀ n, t = .name n → Name.isPart n = true := by
    simp [Assembly.Holds, Assembly.start, Assembly.settled, Assembly.begun]
  have hholds := hstart.run (by simp) (fun l hl t ht n hname ↦ ?_) hrun
  · exact hholds s (List.mem_reverse.mp hs) _ hn n rfl
  · refine hreads.isPart ?_
    rw [← hname, ← ht, ← map_snd_numbered 1 ls, ← hls]
    exact List.mem_map_of_mem hl

/-! ## What an import asks for -/

theorem Grammar.Dotted.mem_name {ts : List Token} {ns : List String} (h : Dotted ts ns) :
    ∀ n ∈ ns, .name n ∈ ts := by
  induction h with
  | single n => simp
  | @cons n ts ns _ ih =>
    refine List.forall_mem_cons.mpr ⟨List.mem_cons_self, fun m hm ↦ ?_⟩
    exact List.mem_cons_of_mem _ (List.mem_cons_of_mem _ (ih m hm))

theorem Grammar.Derives.first_of_import {ts : List Token} {e : String} {names : List String}
    (h : Derives (.name "import" :: ts) (e :: names)) :
    ∃ parts, parts ≠ [] ∧ e = paste '.' parts ∧ ∀ p ∈ parts, .name p ∈ ts := by
  obtain ⟨origins, horigins, hnames⟩ := derives_import_iff.mp h
  have hitem {us : List Token} {parts : List String} (hus : ModuleItem us parts)
      (hmem : ∀ t ∈ us, t ∈ ts)
      (he : e = paste '.' parts) : ∃ parts, parts ≠ [] ∧ e = paste '.' parts ∧
        ∀ p ∈ parts, .name p ∈ ts := by
    obtain ⟨hd, -⟩ := hus
    exact ⟨parts, hd.ne_nil, he, fun p hp ↦ hmem _ (List.mem_append_left _ (hd.mem_name p hp))⟩
  cases horigins with
  | single hus => exact hitem hus (fun _ ht ↦ ht) (List.cons.inj hnames).1
  | cons hus _ => exact hitem hus (fun _ ht ↦ List.mem_append_left _ ht) (List.cons.inj hnames).1

/-- A source that begins with the word `import` has an import for its first statement. -/
theorem exists_first_statement {back : List Char} {ss : List Statement}
    (hback : back.head?.all (· = ' ') = true)
    (h : statements (['i', 'm', 'p', 'o', 'r', 't'] ++ back) = .ok ss) :
    ∃ s rest ts, ss = s :: rest ∧ s.isTopLevel = true ∧ s.tokens = .name "import" :: ts := by
  obtain ⟨a, hrun, -, rfl⟩ := statements_eq_ok_iff.mp h
  have hword : Reads ['i', 'm', 'p', 'o', 'r', 't'] back.head? [.token (.name "import")] := by
    refine .single (spells_import.before (fun c hc ↦ ?_) (by simp))
    rw [Option.mem_def.mp hc] at hback
    obtain rfl : c = ' ' := by simpa using hback
    decide
  rw [withoutMark_of_head (by simp), hword.lexemes, Assembly.run_append] at hrun
  obtain ⟨a', hfirst, hrun⟩ := bind_eq_ok_iff.mp hrun
  obtain rfl := Except.ok.inj hfirst
  have hopens : (Assembly.push .start (.name "import")).Opens (.name "import") :=
    Assembly.opens_of_draft rfl rfl rfl rfl
  obtain ⟨s, hs, htop, hhead⟩ := (hopens.run hrun).first
  obtain ⟨ts, hts⟩ := List.head?_eq_some_iff.mp hhead
  obtain ⟨later, hlater⟩ := List.getLast?_eq_some_iff.mp hs
  exact ⟨s, later.reverse, ts, by simp [hlater], htop, hts⟩

theorem isDotted_of_imports {e : String} (h : imports .topLevel ("import " ++ e) = .ok [e]) :
    Name.isDotted e = true := by
  obtain ⟨ss, hss, hnames⟩ := imports_eq_ok_iff.mp h
  obtain ⟨back, htext, hback⟩ :
    ∃ back, trimEnd ("import " ++ e).toList = ['i', 'm', 'p', 'o', 'r', 't'] ++ back ∧
      back.head?.all (· = ' ') = true := by
    have htext : ("import " ++ e).toList = ['i', 'm', 'p', 'o', 'r'] ++ 't' :: ' ' :: e.toList := by
      simp
    refine ⟨trimEnd (' ' :: e.toList), by rw [htext, trimEnd_append_cons (by decide)]; rfl, ?_⟩
    by_cases hnil : trimEnd (' ' :: e.toList) = []
    · rw [hnil]
      rfl
    · rw [head?_trimEnd hnil]
      rfl
  rw [htext] at hss
  obtain ⟨s, rest, ts, rfl, htop, hts⟩ := exists_first_statement hback hss
  have hcovers : Scope.topLevel.covers s = true := by simp [Scope.covers, htop]
  obtain ⟨found, later, hfound, -, heq⟩ := (importedBy_cons_of_covers hcovers).mp hnames
  rw [hts] at hfound
  have hderives : Derives (.name "import" :: ts) found :=
    (importedNames_import .topLevel ts).mp hfound
  cases found with
  | nil =>
    obtain ⟨origins, horigins, hnil⟩ := derives_import_iff.mp hderives
    cases horigins <;> simp at hnil
  | cons e' found =>
    obtain rfl : e' = e := (List.cons.inj heq).1
    obtain ⟨parts, hne, he, hparts⟩ := hderives.first_of_import
    have hall : ∀ p ∈ parts, Name.isPart p = true := fun p hp ↦
      isPart_of_mem_statements hss List.mem_cons_self (hts ▸ List.mem_cons_of_mem _ (hparts p hp))
    rw [Name.isDotted, he, cut_paste hne fun p hp ↦ dot_notMem_of_isPart (hall p hp)]
    exact List.all_eq_true.mpr hall

theorem imports_of_isDotted {e : String} (h : Name.isDotted e = true) :
    imports .topLevel ("import " ++ e) = .ok [e] := by
  have hparts : ∀ p ∈ cut '.' e, Name.isPart p = true := List.all_eq_true.mp h
  obtain ⟨ts, hdotted, hstatements⟩ := statements_import_of_parts (cut_ne_nil '.' e) hparts
  have htrim :=
    trimEnd_append_of_parts (cut_ne_nil '.' e) hparts ['i', 'm', 'p', 'o', 'r', 't', ' ']
  rw [paste_cut] at hstatements htrim
  have htext : ("import " ++ e).toList = ['i', 'm', 'p', 'o', 'r', 't', ' '] ++ e.toList := by simp
  have hitem : ModuleItem ts (cut '.' e) := by
    have := ModuleItem.mk hdotted .absent
    rwa [List.append_nil] at this
  have hderives : Derives (.name "import" :: ts) [e] := by
    have := Derives.modules (.single hitem)
    rwa [List.map_singleton, paste_cut] at this
  refine imports_eq_ok_iff.mpr ⟨_, by rw [htext, htrim]; exact hstatements, ?_⟩
  refine (importedBy_cons_of_covers rfl).mpr ⟨[e], [], ?_, rfl, rfl⟩
  exact (importedNames_import .topLevel ts).mpr hderives

end ModuleReload.Source

namespace ModuleReload

open Source

/-! ## Settings -/

namespace Settings

/-- Settings make sense if their numbers do and their entries are dotted names. -/
theorem validate_eq_ok_iff {s : Settings} :
    s.validate = .ok () ↔ s.verbosity ≤ greatestVerbosity ∧ 0 < s.debounce ∧
      ∀ e ∈ s.entries, Name.isDotted e = true := by
  have hentries : s.entries.find? (!Name.isDotted ·) = none ↔ ∀ e ∈ s.entries,
      Name.isDotted e = true := by
    simp [List.find?_eq_none]
  have hfault : s.validate = .ok () ↔ s.fault? = none := by
    rw [validate]
    cases s.fault? <;> simp
  rw [hfault, fault?]
  split
  case isTrue h => simp [Nat.not_le.mpr h]
  case isFalse h =>
    split
    case isTrue hzero => simp [hzero]
    case isFalse hzero => simp [hentries, Nat.not_lt.mp h, Nat.pos_of_ne_zero hzero]

end Settings

/-- **Entries are what can be imported.** A text is a dotted name if and only if the source with the
word `import`, a space and the text in it depends on the text and on nothing else. So this is also
what settings ask of their entries. -/
theorem Name.isDotted_iff_imports (s : Settings) (e : String) :
    (isDotted e = true ↔ imports .topLevel ("import " ++ e) = .ok [e]) ∧
      (s.validate = .ok () ↔ s.verbosity ≤ Settings.greatestVerbosity ∧ 0 < s.debounce ∧
        ∀ e ∈ s.entries, imports .topLevel ("import " ++ e) = .ok [e]) := by
  have hiff (e : String) : isDotted e = true ↔ imports .topLevel ("import " ++ e) = .ok [e] :=
    ⟨imports_of_isDotted, isDotted_of_imports⟩
  refine ⟨hiff e, ?_⟩
  simp only [Settings.validate_eq_ok_iff, hiff]

end ModuleReload
