import ModuleReload.Proofs.Source.Compound

/-!
# Brackets of a source

A bracket may stay open over line ends and semicolons, and a statement ends only where none is open.
So the brackets of each statement stand in pairs, though they are matched over the source as a
whole: it is accepted exactly if nothing in it is malformed and all its brackets stand in pairs
(`statements_wellBracketed`).

Two readers of brackets are compared. `Token.openAfter?` knows open brackets alone, and what it
takes off again are the words of `Grammar.Balanced`. An assembly has statements and lines besides,
and `Assembly.Step` says once what a lexeme may do to it: pass, put a token into the draft, or
complete the draft. What assemblies keep (`Assembly.Sound`) and the tokens they have read follow
from these three.
-/

namespace ModuleReload.Source

open ModuleReload.Source.Grammar

variable {ts us : List Token} {bs cs : List Bracket}

/-! ## Reading brackets -/

namespace Token

/-- The brackets that are open behind a token, the innermost first, where `bs` are open before it.
None if it closes another bracket than the innermost. -/
def openAfter? (bs : List Bracket) : Token → Option (List Bracket)
  | opening b => some (b :: bs)
  | closing b => if bs.head? = some b then some bs.tail else none
  | _ => some bs

/-- The brackets that are open behind tokens. -/
def openAfterAll? (bs : List Bracket) (ts : List Token) : Option (List Bracket) :=
  ts.foldlM openAfter? bs

theorem openAfter?_of_not_isBracket {t : Token} (ht : t.isBracket = false) (bs : List Bracket) :
    t.openAfter? bs = some bs := by
  cases t with
  | opening | closing => simp [isBracket] at ht
  | _ => rfl

theorem openAfterAll?_cons (bs : List Bracket) (t : Token) (ts : List Token) :
    openAfterAll? bs (t :: ts) = (t.openAfter? bs).bind (openAfterAll? · ts) :=
  List.foldlM_cons

theorem openAfterAll?_append (bs : List Bracket) (ts us : List Token) :
    openAfterAll? bs (ts ++ us) = (openAfterAll? bs ts).bind (openAfterAll? · us) :=
  List.foldlM_append

theorem openAfterAll?_singleton (bs : List Bracket) (t : Token) :
    openAfterAll? bs [t] = t.openAfter? bs :=
  (openAfterAll?_cons bs t []).trans (Option.bind_fun_some _)

theorem openAfterAll?_of_balanced (h : Balanced ts) (bs : List Bracket) :
    openAfterAll? bs ts = some bs := by
  induction h generalizing bs with
  | nil => rfl
  | cons ht _ ih => rw [openAfterAll?_cons, openAfter?_of_not_isBracket ht, Option.bind_some, ih]
  | enclosed b _ _ ih₁ ih₂ =>
    have hopening : (opening b).openAfter? bs = some (b :: bs) := rfl
    have hclosing : (closing b).openAfter? (b :: bs) = some bs := if_pos rfl
    rw [openAfterAll?_cons, hopening, Option.bind_some, openAfterAll?_append, ih₁, Option.bind_some,
      openAfterAll?_cons, hclosing, Option.bind_some, ih₂]

end Token

namespace Grammar

theorem Balanced.append (h : Balanced us) (hs : Balanced ts) : Balanced (us ++ ts) := by
  induction h with
  | nil => exact hs
  | cons ht _ ih => exact .cons ht ih
  | enclosed b hin _ _ ih =>
    rw [List.cons_append, List.append_assoc, List.cons_append]
    exact .enclosed b hin ih

/-- Tokens whose brackets stand in pairs but for some that are left open, the innermost of them
first. -/
inductive Unclosed : List Bracket → List Token → Prop
  | balanced {ts : List Token} (h : Balanced ts) : Unclosed [] ts
  | inside (b : Bracket) {bs : List Bracket} {ts us : List Token} (h : Unclosed bs ts)
      (hin : Balanced us) :
      Unclosed (b :: bs) (ts ++ .opening b :: us)

namespace Unclosed

theorem append (h : Unclosed bs ts) (hs : Balanced us) : Unclosed bs (ts ++ us) := by
  cases h with
  | balanced h => exact .balanced (h.append hs)
  | inside b h hin =>
    rw [List.append_assoc, List.cons_append]
    exact .inside b h (hin.append hs)

theorem concat {t : Token} (h : Unclosed bs ts) (ht : t.openAfter? bs = some cs) :
    Unclosed cs (ts ++ [t]) := by
  cases t with
  | opening b =>
    obtain rfl := Option.some.inj ht
    exact .inside b h .nil
  | closing b =>
    rw [Token.openAfter?, Option.ite_none_right_eq_some] at ht
    obtain ⟨hhead, heq⟩ := ht
    obtain rfl := Option.some.inj heq
    -- The innermost bracket and what stands behind it become a pair.
    cases h with
    | balanced => simp at hhead
    | @inside b' bs ts us h hin =>
      obtain rfl : b' = b := Option.some.inj hhead
      rw [List.append_assoc, List.cons_append]
      exact h.append (.enclosed b' hin .nil)
  | _ =>
    obtain rfl := Option.some.inj ht
    exact h.append (.cons rfl .nil)

theorem of_openAfterAll? (h : Unclosed bs ts) (hs : Token.openAfterAll? bs us = some cs) :
    Unclosed cs (ts ++ us) := by
  induction us generalizing bs ts with
  | nil =>
    obtain rfl := Option.some.inj hs
    rwa [List.append_nil]
  | cons u us ih =>
    rw [Token.openAfterAll?_cons] at hs
    obtain ⟨ds, hu, hus⟩ := Option.bind_eq_some_iff.mp hs
    rw [List.append_cons]
    exact ih (h.concat hu) hus

end Unclosed

/-- Brackets stand in pairs if and only if the reader finds a partner for each of them. -/
theorem balanced_iff_openAfterAll? : Balanced ts ↔ Token.openAfterAll? [] ts = some [] := by
  refine ⟨fun h ↦ Token.openAfterAll?_of_balanced h [], fun h ↦ ?_⟩
  cases (Unclosed.balanced .nil).of_openAfterAll? h with
  | balanced h => exact h

end Grammar

/-! ## Steps of an assembly -/

def Lexeme.tokens : Lexeme → List Token
  | token t => [t]
  | _ => []

namespace Assembly

variable {a b : Assembly} {line : Nat} {l : Lexeme} {e : SyntaxError}

/-- The brackets that are open, the innermost first. -/
def opened (a : Assembly) : List Bracket :=
  a.waiting.map Prod.fst

/-- What reading a lexeme on a line does to an assembly. -/
inductive Step (a : Assembly) (line : Nat) (l : Lexeme) : Assembly → Prop
  /-- It has no token. At most the marks for the beginning of a line change. -/
  | pass (hl : l.tokens = []) (indented fresh : Bool) :
      Step a line l { a with draft := { a.draft with indented }, fresh }
  /-- A token goes into the draft: its own, or that of a semicolon inside brackets. -/
  | push {t : Token} (hl : l.tokens = [t] ∨ l.tokens = [] ∧ t = .other)
      {waiting : List (Bracket × Nat)} (hopen : t.openAfter? a.opened = some (waiting.map Prod.fst))
      (hwaiting : ∀ w ∈ waiting, w ∈ a.waiting ∨ w.2 = line) :
      Step a line l { a.push t with waiting }
  /-- Outside brackets the draft is complete, and a new one begins. -/
  | complete (hl : l.tokens = []) (hopen : a.waiting = []) {line' : Nat} (hge : line ≤ line')
      (hle : line' ≤ line + l.height) (indented nested fresh : Bool) :
      Step a line l ⟨a.settled, begun line' indented nested, [], fresh⟩

theorem Step.push_plain {t : Token} (ht : t.isBracket = false)
    (hl : l.tokens = [t] ∨ l.tokens = [] ∧ t = .other) : Step a line l (a.push t) :=
  .push hl (Token.openAfter?_of_not_isBracket ht _) fun _ hw ↦ .inl hw

/-- A lexeme that is refused is refused on its line: it is malformed, or closes a bracket that is
not open. -/
theorem step_spec (a : Assembly) (line : Nat) (l : Lexeme) :
    match a.step line l with
    | .ok b => a.Step line l b
    | .error e =>
      e.line = line ∧
      ((∃ fault, l = .malformed fault) ∨ Token.openAfterAll? a.opened l.tokens = none) := by
  cases l with
  | blank => exact .pass rfl _ _
  | carriageReturn | comment | continuation => exact .pass rfl a.draft.indented false
  | malformed fault => exact ⟨rfl, .inl ⟨fault, rfl⟩⟩
  | lineEnd =>
    by_cases hopen : a.waiting.isEmpty = true
    · simp only [step, if_pos hopen]
      exact .complete rfl (List.isEmpty_iff.mp hopen) (Nat.le_succ line) (Nat.le_refl _) _ _ _
    · simp only [step, if_neg hopen]
      exact .pass rfl a.draft.indented false
  | semicolon =>
    by_cases hopen : a.waiting.isEmpty = true
    · simp only [step, if_pos hopen]
      exact .complete rfl (List.isEmpty_iff.mp hopen) (Nat.le_refl line) (Nat.le_refl _) _ _ _
    · simp only [step, if_neg hopen]
      exact .push_plain rfl (.inr ⟨rfl, rfl⟩)
  | token t =>
    cases t with
    | opening b =>
      refine .push (.inl rfl) rfl fun w hw ↦ ?_
      rcases List.mem_cons.mp hw with rfl | hw
      · exact .inr rfl
      · exact .inl hw
    | closing b =>
      have hnone (h : a.opened.head? ≠ some b) :
          Token.openAfterAll? a.opened [.closing b] = none := by
        rw [Token.openAfterAll?_singleton, Token.openAfter?, if_neg h]
      cases hwaiting : a.waiting with
      | nil =>
        simp only [step, hwaiting]
        exact ⟨trivial, .inr (hnone (by simp [opened, hwaiting]))⟩
      | cons w waiting =>
        have hopened : a.opened = w.1 :: waiting.map Prod.fst := by
          rw [opened, hwaiting, List.map_cons]
        by_cases heq : w.1 = b
        · simp only [step, hwaiting, if_pos heq]
          refine .push (.inl rfl) ?_ fun w' hw' ↦ .inl ?_
          · rw [hopened, heq]
            exact if_pos rfl
          · rw [hwaiting]
            exact List.mem_cons_of_mem w hw'
        · simp only [step, hwaiting, if_neg heq]
          exact ⟨trivial, .inr (hnone (by simpa [hopened] using heq))⟩
    | _ => exact .push_plain rfl (.inl rfl)

theorem step_eq_ok (h : a.step line l = .ok b) : a.Step line l b := by
  have hspec := a.step_spec line l
  rwa [h] at hspec

theorem step_eq_error (h : a.step line l = .error e) :
    e.line = line ∧
      ((∃ fault, l = .malformed fault) ∨ Token.openAfterAll? a.opened l.tokens = none) := by
  have hspec := a.step_spec line l
  rwa [h] at hspec

/-! ## What is open -/

theorem Step.openAfterAll? (h : a.Step line l b) :
    Token.openAfterAll? a.opened l.tokens = some b.opened := by
  cases h with
  | pass hl => rw [hl]; rfl
  | push hl hopen =>
    rcases hl with hl | ⟨hl, rfl⟩
    · rw [hl, Token.openAfterAll?_singleton, hopen]
      rfl
    · rw [hl]
      exact hopen
  | complete hl hopen =>
    rw [hl, opened, hopen]
    rfl

theorem exists_step_iff :
    (∃ b, a.step line l = .ok b ∧ b.opened = bs) ↔
      (∀ fault, l ≠ .malformed fault) ∧ Token.openAfterAll? a.opened l.tokens = some bs := by
  constructor
  · rintro ⟨b, hb, rfl⟩
    refine ⟨?_, (step_eq_ok hb).openAfterAll?⟩
    rintro fault rfl
    simp [step] at hb
  · rintro ⟨hread, hopen⟩
    cases hb : a.step line l with
    | ok b => exact ⟨b, rfl, Option.some.inj ((step_eq_ok hb).openAfterAll?.symm.trans hopen)⟩
    | error e =>
      rcases (step_eq_error hb).2 with ⟨fault, hfault⟩ | hnone
      · exact absurd hfault (hread fault)
      · rw [hnone] at hopen
        simp at hopen

/-- A run is accepted if nothing in it is malformed and the reader accepts its brackets. -/
theorem exists_run_iff {ls : List (Nat × Lexeme)} :
    (∃ b, a.run ls = .ok b ∧ b.opened = bs) ↔
      (∀ l ∈ ls, ∀ fault, l.2 ≠ .malformed fault) ∧
        Token.openAfterAll? a.opened (ls.flatMap fun l ↦ l.2.tokens) = some bs := by
  induction ls generalizing a with
  | nil =>
    have hnil : (∃ b, a.run [] = .ok b ∧ b.opened = bs) ↔ a.opened = bs :=
      ⟨fun ⟨b, hb, h⟩ ↦ Except.ok.inj hb ▸ h, fun h ↦ ⟨a, rfl, h⟩⟩
    simp [hnil, Token.openAfterAll?]
  | cons l ls ih =>
    have hcons : (∃ b, a.run (l :: ls) = .ok b ∧ b.opened = bs) ↔
        ∃ a', a.step l.1 l.2 = .ok a' ∧ ∃ b, a'.run ls = .ok b ∧ b.opened = bs := by
      rw [run_cons]
      cases a.step l.1 l.2 <;> simp [bind, Except.bind]
    rw [hcons, List.forall_mem_cons, List.flatMap_cons, Token.openAfterAll?_append,
      Option.bind_eq_some_iff]
    constructor
    · rintro ⟨a', ha', hrun⟩
      obtain ⟨hread, hopen⟩ := exists_step_iff.mp ⟨a', ha', rfl⟩
      obtain ⟨hreads, hopens⟩ := ih.mp hrun
      exact ⟨⟨hread, hreads⟩, _, hopen, hopens⟩
    · rintro ⟨⟨hread, hreads⟩, cs, hopen, hopens⟩
      obtain ⟨a', ha', rfl⟩ := exists_step_iff.mpr ⟨hread, hopen⟩
      exact ⟨a', ha', ih.mpr ⟨hreads, hopens⟩⟩

/-! ## What has been read -/

/-- The tokens of the complete statements and the draft, in order. -/
def tokens (a : Assembly) : List Token :=
  a.complete.reverse.flatMap Statement.tokens ++ a.draft.tokens.reverse

theorem flatMap_settled (a : Assembly) : a.settled.reverse.flatMap Statement.tokens = a.tokens := by
  rw [settled, tokens]
  split
  case isTrue hnil => simp [List.isEmpty_iff.mp hnil]
  case isFalse => simp

/-- Tokens are neither lost nor made up, but for `Token.other`, which a semicolon inside brackets
becomes. -/
theorem Step.filter_tokens (h : a.Step line l b) :
    b.tokens.filter (· ≠ .other) =
      a.tokens.filter (· ≠ .other) ++ l.tokens.filter (· ≠ .other) := by
  cases h with
  | pass hl => rw [hl, List.filter_nil, List.append_nil]; rfl
  | @push t hl waiting =>
    have htokens : Assembly.tokens { a.push t with waiting } = a.tokens ++ [t] := by
      simp [Assembly.tokens, Assembly.push]
    rw [htokens, List.filter_append]
    rcases hl with hl | ⟨hl, rfl⟩ <;> simp [hl]
  | complete hl =>
    rw [hl, List.filter_nil, List.append_nil, Assembly.tokens, flatMap_settled]
    simp [begun]

theorem filter_tokens_run {ls : List (Nat × Lexeme)} (h : a.run ls = .ok b) :
    b.tokens.filter (· ≠ .other) =
      a.tokens.filter (· ≠ .other) ++ (ls.flatMap fun l ↦ l.2.tokens).filter (· ≠ .other) := by
  induction ls generalizing a with
  | nil =>
    obtain rfl := Except.ok.inj h
    simp
  | cons l ls ih =>
    rw [run_cons] at h
    cases hstep : a.step l.1 l.2 with
    | error e => simp [hstep, bind, Except.bind] at h
    | ok a' =>
      rw [hstep] at h
      rw [ih h, (step_eq_ok hstep).filter_tokens, List.flatMap_cons, List.filter_append,
        List.append_assoc]

end Assembly

/-! ## Statements and lines -/

/-- A statement with tokens whose brackets stand in pairs, on one of the lines from the first to the
given one. -/
structure Statement.WellBracketed (last : Nat) (s : Statement) : Prop where
  ne_nil : s.tokens ≠ []
  balanced : Balanced s.tokens
  one_le_line : 1 ≤ s.line
  line_le : s.line ≤ last

theorem Statement.WellBracketed.mono {s : Statement} {i j : Nat} (h : s.WellBracketed i)
    (hle : i ≤ j) : s.WellBracketed j :=
  { h with line_le := Nat.le_trans h.line_le hle }

namespace Assembly

/-- What holds of an assembly that has read up to a line. -/
structure Sound (a : Assembly) (line : Nat) : Prop where
  complete : ∀ s ∈ a.complete, s.WellBracketed a.draft.line
  descending : a.complete.Pairwise fun s t ↦ t.line ≤ s.line
  draft : Unclosed a.opened a.draft.tokens.reverse
  one_le_line : 1 ≤ a.draft.line
  line_le : a.draft.line ≤ line
  waiting : ∀ w ∈ a.waiting, 1 ≤ w.2 ∧ w.2 ≤ line

theorem Sound.start : start.Sound 1 where
  complete := by simp [Assembly.start]
  descending := .nil
  draft := .balanced .nil
  one_le_line := Nat.le_refl 1
  line_le := Nat.le_refl 1
  waiting := by simp [Assembly.start]

variable {a b : Assembly} {line : Nat} {l : Lexeme}

theorem Sound.mono {line' : Nat} (h : a.Sound line) (hle : line ≤ line') : a.Sound line' :=
  { h with
    line_le := Nat.le_trans h.line_le hle
    waiting := fun w hw ↦ ⟨(h.waiting w hw).1, Nat.le_trans (h.waiting w hw).2 hle⟩ }

theorem Sound.settled (h : a.Sound line) (hopen : a.waiting = []) :
    (∀ s ∈ a.settled, s.WellBracketed line) ∧ a.settled.Pairwise fun s t ↦ t.line ≤ s.line := by
  have hcomplete : ∀ s ∈ a.complete, s.WellBracketed line :=
    fun s hs ↦ (h.complete s hs).mono h.line_le
  rw [Assembly.settled]
  split
  case isTrue => exact ⟨hcomplete, h.descending⟩
  case isFalse hne =>
    have hdraft := h.draft
    rw [opened, hopen, List.map_nil] at hdraft
    refine ⟨List.forall_mem_cons.mpr ⟨?_, hcomplete⟩, List.pairwise_cons.mpr ⟨?_, h.descending⟩⟩
    · cases hdraft with
      | balanced hbalanced => exact ⟨by simpa using hne, hbalanced, h.one_le_line, h.line_le⟩
    · exact fun s hs ↦ (h.complete s hs).line_le

theorem Sound.step (h : a.Sound line) (hs : a.Step line l b) : b.Sound (line + l.height) := by
  have hpositive : 1 ≤ line := Nat.le_trans h.one_le_line h.line_le
  cases hs with
  | pass =>
    exact Sound.mono ⟨h.complete, h.descending, h.draft, h.one_le_line, h.line_le, h.waiting⟩
      (Nat.le_add_right _ _)
  | @push t hl waiting hopen hwaiting =>
    refine Sound.mono ⟨h.complete, h.descending, ?_, h.one_le_line, h.line_le, fun w hw ↦ ?_⟩
      (Nat.le_add_right _ _)
    · show Unclosed (waiting.map Prod.fst) (t :: a.draft.tokens).reverse
      rw [List.reverse_cons]
      exact h.draft.concat hopen
    · rcases hwaiting w hw with hold | hline
      · exact h.waiting w hold
      · exact ⟨hline ▸ hpositive, Nat.le_of_eq hline⟩
  | @complete hl hopen line' hge hle =>
    obtain ⟨hcomplete, hdescending⟩ := h.settled hopen
    exact {
      complete := fun s hs ↦ (hcomplete s hs).mono hge
      descending := hdescending
      draft := .balanced .nil
      one_le_line := Nat.le_trans hpositive hge
      line_le := hle
      waiting := by simp }

end Assembly

theorem height_add_count {c : Char} {cs : List Char}
    (hl : ∀ fault, (lexeme c cs).1 ≠ .malformed fault) :
    (lexeme c cs).1.height + (lexeme c cs).2.count '\n' = (c :: cs).count '\n' := by
  obtain ⟨mid, hmid, hspells⟩ := exists_spells (Prod.eta (lexeme c cs)).symm hl
  rw [hspells.height, ← List.count_append, List.cons_append, ← hmid]

/-- Up to where a text is read, assemblies are sound, and where it is refused, that is on one of its
lines. -/
theorem Assembly.Sound.run_lexemes {a : Assembly} {line : Nat} (h : a.Sound line) (cs : List Char) :
    match a.run (lexemes line cs) with
    | .ok b => b.Sound (line + cs.count '\n')
    | .error e => 1 ≤ e.line ∧ e.line ≤ line + cs.count '\n' := by
  fun_induction lexemes line cs generalizing a with
  | case1 line => exact h.mono (Nat.le_add_right _ _)
  | case2 line c cs ih =>
    rw [Assembly.run_cons]
    -- A lexeme that is refused ends the run on its line, so its own line ends do not count.
    cases hstep : a.step line (lexeme c cs).1 with
    | error e =>
      obtain ⟨rfl, -⟩ := Assembly.step_eq_error hstep
      exact ⟨Nat.le_trans h.one_le_line h.line_le, Nat.le_add_right _ _⟩
    | ok b =>
      have hread : ∀ fault, (lexeme c cs).1 ≠ .malformed fault :=
        (Assembly.exists_step_iff.mp ⟨b, hstep, rfl⟩).1
      rw [← height_add_count hread, ← Nat.add_assoc]
      exact ih (h.step (Assembly.step_eq_ok hstep))

/-! ## Sources -/

/-- A source is accepted if and only if nothing in it is malformed and its brackets stand in
pairs. -/
theorem exists_statements_iff {source : List Char} {ls : List (Nat × Lexeme)}
    (hls : lexemes 1 (withoutMark source) = ls) :
    (∃ ss, statements source = .ok ss) ↔
      (∀ l ∈ ls, ∀ fault, l.2 ≠ .malformed fault) ∧ Balanced (ls.flatMap fun l ↦ l.2.tokens) := by
  have hrun : (∃ a, Assembly.start.run ls = .ok a ∧ a.opened = []) ↔ _ := Assembly.exists_run_iff
  rw [balanced_iff_openAfterAll?]
  refine Iff.trans ?_ hrun
  simp only [statements_eq_ok_iff, hls]
  constructor
  · rintro ⟨ss, a, ha, hopen, -⟩
    exact ⟨a, ha, List.map_eq_nil_iff.mpr hopen⟩
  · rintro ⟨a, ha, hopen⟩
    exact ⟨_, a, ha, List.map_eq_nil_iff.mp hopen, rfl⟩

/-- **Statements are well-bracketed.** A source is accepted if and only if nothing in it is
malformed and all its brackets stand in pairs. Then each of its statements has tokens, whose
brackets stand in pairs by themselves, and the statements stand on lines of the source, none above
the one before it. Together they have the tokens of the source in order, but for `Token.other`,
which a semicolon inside brackets becomes too. A source that is refused is refused on one of its
lines. -/
theorem statements_wellBracketed (source : List Char) :
    let ls := lexemes 1 (withoutMark source)
    ((∃ ss, statements source = .ok ss) ↔
        (∀ l ∈ ls, ∀ fault, l.2 ≠ .malformed fault) ∧ Balanced (ls.flatMap fun l ↦ l.2.tokens)) ∧
      match statements source with
      | .ok ss =>
        (∀ s ∈ ss, s.WellBracketed (1 + source.count '\n')) ∧
          (ss.Pairwise fun s t ↦ s.line ≤ t.line) ∧
          (ss.flatMap Statement.tokens).filter (· ≠ .other) =
            (ls.flatMap fun l ↦ l.2.tokens).filter (· ≠ .other)
      | .error e => 1 ≤ e.line ∧ e.line ≤ 1 + source.count '\n' := by
  intro ls
  refine ⟨exists_statements_iff rfl, ?_⟩
  have hsound := Assembly.Sound.start.run_lexemes (withoutMark source)
  rw [count_withoutMark] at hsound
  rw [statements]
  cases hrun : Assembly.start.run ls with
  | error e =>
    rw [hrun] at hsound
    exact hsound
  | ok a =>
    rw [hrun] at hsound
    cases hopen : a.waiting with
    | cons w waiting =>
      simp only [Assembly.finish, hopen]
      exact hsound.waiting w (by simp [hopen])
    | nil =>
      simp only [Assembly.finish, hopen]
      obtain ⟨hcomplete, hdescending⟩ := hsound.settled hopen
      refine ⟨fun s hs ↦ hcomplete s (List.mem_reverse.mp hs),
        List.pairwise_reverse.mpr hdescending, ?_⟩
      rw [Assembly.flatMap_settled, Assembly.filter_tokens_run hrun]
      rfl

end ModuleReload.Source
