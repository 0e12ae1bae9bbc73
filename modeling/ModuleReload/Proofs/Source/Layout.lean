import ModuleReload.Proofs.Source.Outline

/-!
# Layout, comments and the contents of literals

A source can be changed in ways that no import depends on: the text of a comment, the space behind a
token, and the characters of a literal. `Relaid` says what the changes are, and `imports_of_relaid`
that they have no say in what is imported.

Blanks may stand behind every token, and so may line ends behind a backslash; inside brackets line
ends and comments may as well. One place is different. Blanks at the end of a source are cut off
before it is read, so a backslash that is put before them stands at the end of the source and ends
no line (`imports_of_dangling`).
-/

namespace ModuleReload.Source

open Text

/-! ## Changes -/

/-- What may stand behind a token: blanks, line ends behind a backslash, and inside brackets line
ends and comments too. -/
inductive Layout (inside : Prop) : List Char → Prop
  | nil : Layout inside []
  | blank {c : Char} (hc : c = ' ' ∨ c = '\t' ∨ c = '\x0c') {gap : List Char}
      (h : Layout inside gap) :
      Layout inside (c :: gap)
  | continuation {gap : List Char} (h : Layout inside gap) : Layout inside ('\\' :: '\n' :: gap)
  | lineEnd (hinside : inside) {gap : List Char} (h : Layout inside gap) :
      Layout inside ('\n' :: gap)
  | comment (hinside : inside) {text gap : List Char} (htext : '\n' ∉ text)
      (h : Layout inside gap) :
      Layout inside ('#' :: (text ++ '\n' :: gap))

/-- A character of a literal that neither ends it nor its line and takes nothing from the next
one. -/
def isPlain (c : Char) : Bool :=
  !(isQuote c || c == '\\' || c == '\n')

/-- `Relaid source source'` if one comment, the space behind one token, or one character of a
literal is all that the two sources differ in. What stands before the change is read up to it. -/
inductive Relaid : (source source' : List Char) → Prop
  | comment {front old new back : List Char} {ls : List Lexeme}
      (h : Reads (withoutMark front) (some '#') ls)
      (hold : '\n' ∉ old) (hnew : '\n' ∉ new) (hback : ∀ c ∈ back.head?, c = '\n') :
      Relaid (front ++ '#' :: (old ++ back)) (front ++ '#' :: (new ++ back))
  | layout {front gap back : List Char} {ls : List Lexeme} {l : Lexeme} {a : Assembly}
      (h : Reads (withoutMark front) back.head? (ls ++ [l]))
      (hl : l = .semicolon ∨ ∃ t, l = .token t)
      (ha : Assembly.start.run (numbered 1 (ls ++ [l])) = .ok a)
      (hgap : Layout (a.waiting ≠ []) gap)
      (hback : '\\' ∈ gap → a.waiting = [] → ∃ c ∈ back, isBlank c = false) :
      Relaid (front ++ back) (front ++ (gap ++ back))
  | contents {front marked quotes body body' back : List Char} {q x y : Char} {ls : List Lexeme}
      (h : Reads (withoutMark front) (marked ++ quotes).head? ls) (hmark : Mark marked)
      (hq : isQuote q = true)
      (hbody : Enclosed q quotes (body ++ x :: body')) (hx : isPlain x = true)
      (hy : isPlain y = true) :
      Relaid (front ++ (marked ++ (quotes ++ (body ++ x :: body') ++ quotes) ++ back))
        (front ++ (marked ++ (quotes ++ (body ++ y :: body') ++ quotes) ++ back))

/-! ## The space behind a token -/

theorem Layout.separates_of_head {inside : Prop} {gap : List Char} (h : Layout inside gap) :
    ∀ c ∈ gap.head?, separates c = true := by
  cases h with
  | nil => simp
  | blank hc => rcases hc with rfl | rfl | rfl <;> simpa using by decide
  | continuation | lineEnd | comment => simpa using by decide

/-- Inside a line nothing of what stands between tokens changes an assembly, line ends inside
brackets only. -/
theorem Assembly.step_of_layout {a : Assembly} (hfresh : a.fresh = false) (line : Nat) {l : Lexeme}
    (hl : l = .blank ∨ l = .comment ∨ l = .continuation ∨ l = .lineEnd ∧ a.waiting ≠ []) :
    a.step line l = .ok a := by
  obtain ⟨complete, ⟨line', indented, nested, tokens⟩, waiting, fresh⟩ := a
  obtain rfl : fresh = false := hfresh
  rcases hl with rfl | rfl | rfl | ⟨rfl, hwaiting⟩
  · simp [step]
  · rfl
  · rfl
  · simp only [step]
    rw [if_neg (by simpa using hwaiting)]

/-- Layout is read as lexemes that change nothing inside a line, whatever follows it. -/
theorem Layout.exists_reads {inside : Prop} {gap : List Char} (h : Layout inside gap) :
    ∃ ms, (∀ next, Reads gap next ms) ∧
      ∀ a : Assembly, a.fresh = false → (inside → a.waiting ≠ []) →
      ∀ line, a.run (numbered line ms) = .ok a := by
  have hcons {a : Assembly} {line : Nat} {l : Lexeme} {ms : List Lexeme}
      (hl : a.step line l = .ok a)
      (hrun : ∀ line, a.run (numbered line ms) = .ok a) :
        a.run (numbered line (l :: ms)) = .ok a := by
    rw [numbered, Assembly.run_cons, hl]
    exact hrun _
  induction h with
  | nil => exact ⟨[], fun next ↦ .nil next, fun a _ _ line ↦ rfl⟩
  | blank hc _ ih =>
    obtain ⟨ms, hms, hrun⟩ := ih
    refine ⟨.blank :: ms, fun next ↦ .cons (.blank hc _) (hms next), fun a hfresh hinside line ↦ ?_⟩
    exact hcons (Assembly.step_of_layout hfresh _ (.inl rfl)) (hrun a hfresh hinside)
  | continuation _ ih =>
    obtain ⟨ms, hms, hrun⟩ := ih
    refine ⟨.continuation :: ms, fun next ↦ .cons (.continuation (.inl rfl) _) (hms next),
      fun a hfresh hinside line ↦ ?_⟩
    exact hcons (Assembly.step_of_layout hfresh _ (.inr (.inr (.inl rfl)))) (hrun a hfresh hinside)
  | lineEnd hin _ ih =>
    obtain ⟨ms, hms, hrun⟩ := ih
    refine ⟨.lineEnd :: ms, fun next ↦ .cons (.lineEnd _) (hms next),
      fun a hfresh hinside line ↦ ?_⟩
    exact hcons (Assembly.step_of_layout hfresh _ (.inr (.inr (.inr ⟨rfl, hinside hin⟩))))
      (hrun a hfresh hinside)
  | @comment hin text gap htext _ ih =>
    obtain ⟨ms, hms, hrun⟩ := ih
    refine ⟨.comment :: .lineEnd :: ms, fun next ↦ ?_, fun a hfresh hinside line ↦ ?_⟩
    · have hline : Reads ('\n' :: gap) next (.lineEnd :: ms) := .cons (.lineEnd _) (hms next)
      exact .cons (.comment htext (by simp)) hline
    · refine hcons (Assembly.step_of_layout hfresh _ (.inr (.inl rfl))) fun line ↦ ?_
      exact hcons (Assembly.step_of_layout hfresh _ (.inr (.inr (.inr ⟨rfl, hinside hin⟩))))
        (hrun a hfresh hinside)

theorem exists_numbered_concat (line : Nat) (ls : List Lexeme) (l : Lexeme) :
    ∃ k, numbered line (ls ++ [l]) = numbered line ls ++ [(k, l)] := by
  induction ls generalizing line with
  | nil => exact ⟨line, rfl⟩
  | cons m ls ih =>
    obtain ⟨k, hk⟩ := ih (line + m.height)
    exact ⟨k, by rw [List.cons_append, numbered, hk, numbered, List.cons_append]⟩

namespace Assembly

variable {a b : Assembly}

theorem fresh_of_step {line : Nat} {l : Lexeme} (hl : l = .semicolon ∨ ∃ t, l = .token t)
    (h : a.step line l = .ok b) : b.fresh = false := by
  rcases hl with rfl | ⟨t, rfl⟩
  · simp only [step] at h
    split at h <;> exact Except.ok.inj h ▸ rfl
  · cases t with
    | closing c =>
      simp only [step] at h
      split at h
      · simp at h
      · split at h
        · exact Except.ok.inj h ▸ rfl
        · simp at h
    | _ => exact Except.ok.inj h ▸ rfl

theorem fresh_of_run {line : Nat} {ls : List Lexeme} {l : Lexeme}
    (hl : l = .semicolon ∨ ∃ t, l = .token t) (h : a.run (numbered line (ls ++ [l])) = .ok b) :
    b.fresh = false := by
  obtain ⟨k, hk⟩ := exists_numbered_concat line ls l
  rw [hk, run_append] at h
  obtain ⟨c, -, hc⟩ := bind_eq_ok_iff.mp h
  rw [run_cons] at hc
  obtain ⟨d, hstep, hd⟩ := bind_eq_ok_iff.mp hc
  obtain rfl : d = b := Except.ok.inj hd
  exact fresh_of_step hl hstep

theorem waiting_ne_nil_of_step {line : Nat} {l : Lexeme} (hl : ∀ c, l ≠ .token (.closing c))
    (h : a.step line l = .ok b) (ha : a.waiting ≠ []) : b.waiting ≠ [] := by
  have hempty : a.waiting.isEmpty = false := by simpa using ha
  cases l with
  | token t =>
    cases t with
    | opening c => exact Except.ok.inj h ▸ List.cons_ne_nil _ _
    | closing c => exact absurd rfl (hl c)
    | _ => exact Except.ok.inj h ▸ ha
  | malformed fault => simp [step] at h
  | lineEnd | semicolon =>
    simp only [step, hempty] at h
    exact Except.ok.inj h ▸ ha
  | _ => exact Except.ok.inj h ▸ ha

theorem waiting_ne_nil_of_run {ls : List (Nat × Lexeme)}
    (hls : ∀ l ∈ ls, ∀ c, l.2 ≠ .token (.closing c)) (h : a.run ls = .ok b) (ha : a.waiting ≠ []) :
    b.waiting ≠ [] := by
  induction ls generalizing a with
  | nil => exact Except.ok.inj h ▸ ha
  | cons l ls ih =>
    rw [run_cons] at h
    obtain ⟨c, hstep, hrun⟩ := bind_eq_ok_iff.mp h
    obtain ⟨hl, hls⟩ := List.forall_mem_cons.mp hls
    exact ih hls hrun (waiting_ne_nil_of_step hl hstep ha)

theorem outcome_append_of_run {ls : List (Nat × Lexeme)} (h : a.run ls = .ok b)
    (ms : List (Nat × Lexeme)) : a.outcome (ls ++ ms) = b.outcome ms := by
  rw [outcome, run_append, h]
  rfl

end Assembly

theorem eq_closing_of_mark {c : Char} {b : Bracket} (h : mark c = .closing b) : c = b.closing := by
  rw [mark.eq_def] at h
  split at h
  · simp at h
  · next hclosing =>
    obtain rfl := Token.closing.inj h
    rw [Bracket.ofClosing?.eq_def] at hclosing
    split at hclosing <;> cases hclosing <;> rfl
  · split at h <;> simp at h

theorem Spells.closing_mem {text : List Char} {next : Option Char} {b : Bracket}
    (h : Spells text next (.token (.closing b))) : b.closing ∈ text := by
  generalize hl : Lexeme.token (.closing b) = l at h
  cases h with
  | mark => exact eq_closing_of_mark (Lexeme.token.inj hl).symm ▸ List.mem_singleton_self _
  | _ => simp at hl

theorem Reads.closing_mem {text : List Char} {next : Option Char} {ls : List Lexeme}
    (h : Reads text next ls) {b : Bracket} (hb : .token (.closing b) ∈ ls) : b.closing ∈ text := by
  induction h with
  | nil => simp at hb
  | cons h _ ih =>
    rcases List.mem_cons.mp hb with rfl | hb
    · exact List.mem_append_left _ h.closing_mem
    · exact List.mem_append_right _ (ih hb)

theorem isBlank_closing (b : Bracket) : isBlank b.closing = false := by
  cases b <;> decide

theorem eq_snd_of_mem_numbered {line : Nat} {ls : List Lexeme} {l : Nat × Lexeme}
    (h : l ∈ numbered line ls) : l.2 ∈ ls := by
  induction ls generalizing line with
  | nil => simp [numbered] at h
  | cons m ls ih =>
    rcases List.mem_cons.mp h with rfl | h
    · exact List.mem_cons_self
    · exact List.mem_cons_of_mem _ (ih h)

/-- Behind a place inside brackets a source that falls into statements does not only have blanks. -/
theorem exists_not_isBlank_of_waiting {back : List Char} {a b : Assembly} {line : Nat}
    (hrun : a.run (lexemes line back) = .ok b) (ha : a.waiting ≠ []) (hb : b.waiting = []) :
    ∃ c ∈ back, isBlank c = false := by
  obtain ⟨ms, hreads, hlexemes⟩ := exists_reads (Assembly.not_malformed_of_run hrun)
  by_contra hblank
  refine Assembly.waiting_ne_nil_of_run (fun l hl c hc ↦ hblank ?_) hrun ha hb
  rw [hlexemes] at hl
  exact ⟨c.closing, hreads.closing_mem (hc ▸ eq_snd_of_mem_numbered hl), isBlank_closing c⟩

/-! ## The contents of literals -/

theorem ne_of_isPlain {c q : Char} (hc : isPlain c = true) (hq : isQuote q = true) :
    c ≠ q ∧ c ≠ '\\' ∧ c ≠ '\n' := by
  have hplain : (isQuote c = false ∧ c ≠ '\\') ∧ c ≠ '\n' := by simpa [isPlain] using hc
  refine ⟨?_, hplain.1.2, hplain.2⟩
  rintro rfl
  exact absurd hq (by simp [hplain.1.1])

/-- A character that is no backslash stands right behind the first one, or further on. -/
theorem append_eq_escape {x c : Char} {pre post cs : List Char} (hx : x ≠ '\\')
    (h : pre ++ x :: post = '\\' :: c :: cs) :
    (pre = ['\\'] ∧ c = x ∧ cs = post) ∨
      ∃ pre', pre = '\\' :: c :: pre' ∧ cs = pre' ++ x :: post := by
  rcases List.append_eq_cons_iff.mp h with ⟨rfl, heq⟩ | ⟨pre, rfl, heq⟩
  · exact absurd (List.cons.inj heq).1 hx
  · rcases List.cons_eq_append_iff.mp heq with ⟨rfl, htail⟩ | ⟨pre, rfl, htail⟩
    · obtain ⟨rfl, rfl⟩ := List.cons.inj htail
      exact .inl ⟨rfl, rfl, rfl⟩
    · exact .inr ⟨pre, rfl, htail⟩

theorem LineBody.replace {q x y : Char} (hq : isQuote q = true) (hx : isPlain x = true)
    (hy : isPlain y = true) {pre post : List Char} (h : LineBody q (pre ++ x :: post)) :
    LineBody q (pre ++ y :: post) := by
  obtain ⟨hyq, hyslash, hyend⟩ := ne_of_isPlain hy hq
  generalize hbody : pre ++ x :: post = body at h
  induction h generalizing pre with
  | nil => simp at hbody
  | @escape c cs h ih =>
    obtain ⟨rfl, -, rfl⟩ | ⟨pre, rfl, htail⟩ := append_eq_escape (ne_of_isPlain hx hq).2.1 hbody
    · exact .escape y h
    · exact .escape c (ih htail.symm)
  | @cons c cs hc hend hslash h ih =>
    rcases List.append_eq_cons_iff.mp hbody with ⟨rfl, heq⟩ | ⟨pre, rfl, heq⟩
    · obtain ⟨rfl, rfl⟩ := List.cons.inj heq
      exact .cons hyq hyend hyslash h
    · exact .cons hc hend hslash (ih heq.symm)

theorem BlockBody.replace {q x y : Char} (hq : isQuote q = true) (hx : isPlain x = true)
    (hy : isPlain y = true) {pre post : List Char} (h : BlockBody q (pre ++ x :: post)) :
    BlockBody q (pre ++ y :: post) := by
  obtain ⟨hyq, hyslash, -⟩ := ne_of_isPlain hy hq
  generalize hbody : pre ++ x :: post = body at h
  induction h generalizing pre with
  | nil => simp at hbody
  | @escape c cs h ih =>
    obtain ⟨rfl, -, rfl⟩ | ⟨pre, rfl, htail⟩ := append_eq_escape (ne_of_isPlain hx hq).2.1 hbody
    · exact .escape y h
    · exact .escape c (ih htail.symm)
  | @cons c cs hslash hend h ih =>
    rcases List.append_eq_cons_iff.mp hbody with ⟨rfl, heq⟩ | ⟨pre, rfl, heq⟩
    · obtain ⟨rfl, rfl⟩ := List.cons.inj heq
      exact .cons hyslash (fun hend ↦ hyq hend.1) h
    · refine .cons hslash (fun hend' ↦ hend ⟨hend'.1, ?_⟩) (ih heq.symm)
      -- The new character is no quote, so the two quotes stand before it.
      subst heq
      match pre, hend'.2 with
      | [], h => exact absurd (by simpa using h) fun h : y = q ∧ _ ↦ hyq h.1
      | [d], h => exact absurd (by simpa using h) fun h : d = q ∧ y = q ↦ hyq h.2
      | d :: e :: pre, h => exact h

theorem Enclosed.replace {q x y : Char} {quotes pre post : List Char}
    (h : Enclosed q quotes (pre ++ x :: post)) (hq : isQuote q = true) (hx : isPlain x = true)
    (hy : isPlain y = true) : Enclosed q quotes (pre ++ y :: post) := by
  generalize hbody : pre ++ x :: post = body at h
  cases h with
  | line h => exact .line (LineBody.replace hq hx hy (hbody ▸ h))
  | block h => exact .block (BlockBody.replace hq hx hy (hbody ▸ h))

/-! ## Statements after a change -/

theorem map_blur_numbered (line : Nat) (ls : List Lexeme) :
    (numbered line ls).map (fun l ↦ l.2.blur) = ls.map Lexeme.blur := by
  induction ls generalizing line with
  | nil => rfl
  | cons l ls ih => rw [numbered, List.map_cons, List.map_cons, ih]

theorem map_blur_lexemes (i j : Nat) (cs : List Char) :
    (lexemes i cs).map (fun l ↦ l.2.blur) = (lexemes j cs).map fun l ↦ l.2.blur := by
  have hzero (k : Nat) :
      (lexemes k cs).map (fun l ↦ l.2.blur) = (lexemes 0 cs).map fun l ↦ l.2.blur := by
    rw [← Nat.zero_add k, lexemes_add, List.map_map]
    rfl
  rw [hzero i, hzero j]

/-- Two sources with the same outlines have the same outcome, whatever follows both. -/
theorem outcome_eq_of_blur {front front' back : List Char} {ls ls' : List Lexeme}
    (h : Reads front back.head? ls) (h' : Reads front' back.head? ls')
    (hblur : ls.map Lexeme.blur = ls'.map Lexeme.blur) :
    Assembly.start.outcome (lexemes 1 (front ++ back)) =
      Assembly.start.outcome (lexemes 1 (front' ++ back)) := by
  refine Assembly.outcome_congr rfl ?_
  rw [h.lexemes, h'.lexemes, List.map_append, List.map_append, map_blur_numbered, map_blur_numbered,
    hblur, map_blur_lexemes]

theorem Reads.before_separator {text : List Char} {next next' : Option Char} {ls : List Lexeme}
    {l : Lexeme} (h : Reads text next (ls ++ [l])) (hl : l = .semicolon ∨ ∃ t, l = .token t)
    (hnext : ∀ c ∈ next', separates c = true) : Reads text next' (ls ++ [l]) := by
  refine h.before hnext fun hcomment ↦ ?_
  rw [List.getLast?_concat] at hcomment
  rcases hl with rfl | ⟨t, rfl⟩ <;> simp at hcomment

theorem Reads.ne_nil {text : List Char} {next : Option Char} {ls : List Lexeme} {l : Lexeme}
    (h : Reads text next (ls ++ [l])) : text ≠ [] := by
  generalize hls : ls ++ [l] = ms at h
  cases h with
  | nil => simp at hls
  | cons h _ =>
    obtain ⟨c, cs, rfl, -⟩ := h.exists_lexeme
    simp

theorem Enclosed.exists_cons {q : Char} {quotes body : List Char} (h : Enclosed q quotes body) :
    ∃ qs, quotes = q :: qs := by
  cases h <;> exact ⟨_, rfl⟩

theorem Mark.head?_ne {marked quotes body : List Char} {q : Char} (hmark : Mark marked)
    (hq : isQuote q = true) (h : Enclosed q quotes body) :
    (marked ++ quotes).head? ≠ some '\uFEFF' := by
  obtain ⟨qs, rfl⟩ := h.exists_cons
  cases hmark with
  | absent => rcases isQuote_iff.mp hq with rfl | rfl <;> simp
  | @word c cs hstart =>
    rintro hhead
    obtain rfl : c = '\uFEFF' := by simpa using hhead
    exact absurd hstart (by decide)

theorem Reads.literal {front marked quotes body : List Char} {q : Char} {next : Option Char}
    {ls : List Lexeme} (h : Reads front (marked ++ quotes).head? ls) (hmark : Mark marked)
    (hq : isQuote q = true) (hbody : Enclosed q quotes body) (hne : body ≠ []) :
    Reads (front ++ (marked ++ (quotes ++ body ++ quotes))) next
      (ls ++ [.token (.literal (String.ofList body))]) := by
  have hspells :
      Spells (marked ++ (quotes ++ body ++ quotes)) next
        (.token (.literal (String.ofList body))) := by
    refine .literal hmark hq hbody fun hempty ↦ absurd hempty ?_
    obtain ⟨qs, rfl⟩ := hbody.exists_cons
    simp [hne]
  have hhead : (marked ++ (quotes ++ body ++ quotes)).head?.or next = (marked ++ quotes).head? := by
    obtain ⟨qs, rfl⟩ := hbody.exists_cons
    cases marked <;> rfl
  exact .append (hhead ▸ h) (.single hspells)

/-- **A change has no say in the outlines of statements.** -/
theorem Relaid.outcome {source source' : List Char} (h : Relaid source source') :
    Assembly.start.outcome (lexemes 1 (withoutMark source')) =
      Assembly.start.outcome (lexemes 1 (withoutMark source)) := by
  cases h with
  | @comment front old new back ls h hold hnew hback =>
    have hreads {text : List Char} (htext : '\n' ∉ text) :
        Reads (withoutMark front ++ '#' :: text) back.head? (ls ++ [.comment]) :=
      .append h (.single (.comment htext hback))
    have := outcome_eq_of_blur (hreads hnew) (hreads hold) rfl
    rw [withoutMark_append (.inr (by simp)), withoutMark_append (.inr (by simp))]
    simpa using this
  | @layout front gap back ls l a h hl ha hgap hback =>
    have hfront : front ≠ [] := by
      rintro rfl
      exact h.ne_nil rfl
    obtain ⟨ms, hms, hrun⟩ := hgap.exists_reads
    have hseparated : Reads (withoutMark front) (gap ++ back).head? (ls ++ [l]) := by
      cases gap with
      | nil => exact h
      | cons c gap => exact h.before_separator hl (by simpa using hgap.separates_of_head)
    rw [withoutMark_append (.inl hfront), withoutMark_append (.inl hfront), hseparated.lexemes,
      h.lexemes, (hms _).lexemes, Assembly.outcome_append_of_run ha,
      Assembly.outcome_append_of_run ha,
      Assembly.outcome_append_of_run (hrun a (Assembly.fresh_of_run hl ha) id _)]
    exact Assembly.outcome_congr rfl (map_blur_lexemes _ _ _)
  | @contents front marked quotes body body' back q x y ls h hmark hq hbody hx hy =>
    have hhead (z : Char) : (marked ++ (quotes ++ (body ++ z :: body') ++ quotes) ++ back).head? ≠
        some '\uFEFF' := by
      have := hmark.head?_ne hq hbody
      obtain ⟨qs, rfl⟩ := hbody.exists_cons
      cases marked <;> exact this
    have houtcome :=
      @outcome_eq_of_blur _ _ back _ _ (h.literal hmark hq (hbody.replace hq hx hy) (by simp))
        (h.literal hmark hq hbody (by simp)) (by rw [List.map_append, List.map_append]; rfl)
    rw [withoutMark_append (.inr (hhead y)), withoutMark_append (.inr (hhead x))]
    simpa only [List.append_assoc] using houtcome

/-! ## Changes before the blanks at the end -/

theorem Layout.isBlank {inside : Prop} {gap : List Char} (h : Layout inside gap) (hinside : ¬inside)
    (hslash : '\\' ∉ gap) : ∀ c ∈ gap, Text.isBlank c = true := by
  induction h with
  | nil => simp
  | blank hc _ ih =>
    refine List.forall_mem_cons.mpr ⟨?_, ih fun h ↦ hslash (List.mem_cons_of_mem _ h)⟩
    rcases hc with rfl | rfl | rfl <;> decide
  | continuation => exact absurd List.mem_cons_self hslash
  | lineEnd hin | comment hin => exact absurd hin hinside

theorem exists_not_isBlank_of_ne_nil {cs : List Char} (h : trimEnd cs ≠ []) :
    ∃ c ∈ trimEnd cs, isBlank c = false := by
  by_contra hblank
  refine h (trimEnd_trimEnd cs ▸ trimEnd_eq_nil_iff.mpr fun c hc ↦ ?_)
  by_contra hc'
  exact hblank ⟨c, hc, by simpa using hc'⟩

/-- A change to a source is one to what is left of it without the blanks at its end, or one to these
blanks. -/
theorem Relaid.trimmed {source source' : List Char} {ss : List Statement}
    (htokens : statements source = .ok ss) (h : Relaid source source') :
    trimEnd source' = trimEnd source ∨ Relaid (trimEnd source) (trimEnd source') := by
  cases h with
  | @comment front old new back ls h hold hnew hback =>
    right
    rw [trimEnd_append_cons (by decide), trimEnd_append_cons (by decide), trimEnd_append,
      trimEnd_append]
    by_cases hblank : trimEnd back = []
    · rw [if_pos hblank, if_pos hblank]
      have hold' : '\n' ∉ trimEnd old := fun h ↦ hold (mem_of_mem_trimEnd h)
      have hnew' : '\n' ∉ trimEnd new := fun h ↦ hnew (mem_of_mem_trimEnd h)
      simpa using @Relaid.comment front (trimEnd old) (trimEnd new) [] ls h hold' hnew' (by simp)
    · rw [if_neg hblank, if_neg hblank]
      exact .comment h hold hnew (head?_trimEnd hblank ▸ hback)
  | @layout front gap back ls l a h hl ha hgap hback =>
    by_cases hblank : trimEnd back = []
    · left
      have hall := trimEnd_eq_nil_iff.mp hblank
      have hnone : ¬∃ c ∈ back, Text.isBlank c = false := by
        rintro ⟨c, hc, hc'⟩
        exact absurd (hall c hc) (by simp [hc'])
      obtain ⟨b, hrun, hwaiting, -⟩ := statements_eq_ok_iff.mp htokens
      have hfront : front ≠ [] := by
        rintro rfl
        exact h.ne_nil rfl
      rw [withoutMark_append (.inl hfront), h.lexemes, Assembly.run_append, ha] at hrun
      have houtside : a.waiting = [] := by
        by_contra hinside
        exact hnone (exists_not_isBlank_of_waiting hrun hinside hwaiting)
      have hslash : '\\' ∉ gap := fun hslash ↦ hnone (hback hslash houtside)
      have hgap' : trimEnd (gap ++ back) = [] := by
        rw [trimEnd_append, if_pos hblank]
        exact trimEnd_eq_nil_iff.mpr (hgap.isBlank (by simp [houtside]) hslash)
      rw [trimEnd_append, if_pos hgap', trimEnd_append, if_pos hblank]
    · right
      rw [trimEnd_append front, trimEnd_append front, trimEnd_append gap, if_neg hblank,
        if_neg hblank, if_neg (List.append_ne_nil_of_right_ne_nil _ hblank)]
      exact .layout (head?_trimEnd hblank ▸ h) hl ha hgap fun _ _ ↦
        exists_not_isBlank_of_ne_nil hblank
  | @contents front marked quotes body body' back q x y ls h hmark hq hbody hx hy =>
    right
    obtain ⟨qs, hqs⟩ : ∃ qs, quotes = qs ++ [q] := by
      cases hbody
      · exact ⟨[], rfl⟩
      · exact ⟨[q, q], rfl⟩
    have hq' : Text.isBlank q = false := by rcases isQuote_iff.mp hq with rfl | rfl <;> decide
    have htrim (z : Char) :
        trimEnd (front ++ (marked ++ (quotes ++ (body ++ z :: body') ++ quotes) ++ back)) =
        front ++ (marked ++ (quotes ++ (body ++ z :: body') ++ quotes) ++ trimEnd back) := by
      have := trimEnd_append_cons hq' (front ++ (marked ++ (quotes ++ (body ++ z :: body') ++ qs)))
        back
      simpa [hqs] using this
    rw [htrim, htrim]
    exact .contents h hmark hq hbody hx hy

/-- **Layout, comments and the contents of literals have no say in what is imported.** -/
theorem imports_of_relaid (scope : Scope) {source source' : String} {ss : List Statement}
    (htokens : statements source.toList = .ok ss) (h : Relaid source.toList source'.toList) :
    (imports scope source').toOption = (imports scope source).toOption := by
  rw [toOption_imports, toOption_imports]
  rcases h.trimmed htokens with heq | h
  · rw [heq]
  · rw [h.outcome]

theorem spells_import :
    Spells ['i', 'm', 'p', 'o', 'r', 't'] (some ' ') (.token (.name "import")) :=
  @Spells.name 'i' ['m', 'p', 'o', 'r', 't'] (by decide) (by decide) (some ' ') (by decide)
    (by decide)

theorem reads_import_a {next : Option Char} (hnext : ∀ c ∈ next, separates c = true) :
    Reads ['i', 'm', 'p', 'o', 'r', 't', ' ', 'a'] next
      [.token (.name "import"), .blank, .token (.name "a")] := by
  have ha : Spells ['a'] none (.token (.name "a")) := .name (by decide) rfl rfl (by simp)
  exact .cons spells_import (.cons (.blank (.inl rfl) _) (.single (ha.before hnext (by simp))))

theorem imports_import_a :
    imports .topLevel (String.ofList ['i', 'm', 'p', 'o', 'r', 't', ' ', 'a']) = .ok ["a"] := by
  have hnames : importedNames .topLevel [.name "import", .name "a"] = .ok ["a"] := by
    rw [importedNames]
    rfl
  rw [imports, String.toList_ofList,
    show trimEnd _ = ['i', 'm', 'p', 'o', 'r', 't', ' ', 'a'] from by decide,
    statements, withoutMark_of_head (by decide), (reads_import_a (by simp)).lexemes_eq]
  show importedBy .topLevel [⟨1, false, false, [.name "import", .name "a"]⟩] = _
  simp [importedBy, hnames, Scope.covers, Statement.isTopLevel, Except.map]

/-- A line end behind a backslash may go before the second word of a statement. -/
theorem imports_of_relaid_continuation :
    let source := ['i', 'm', 'p', 'o', 'r', 't', ' ', 'a']
    let source' := ['i', 'm', 'p', 'o', 'r', 't', '\\', '\n', ' ', 'a']
    statements source = .ok [⟨1, false, false, [.name "import", .name "a"]⟩] ∧
    Relaid source source' ∧
      (imports .topLevel (String.ofList source')).toOption = some ["a"] := by
  intro source source'
  have htokens : statements source = .ok [⟨1, false, false, [.name "import", .name "a"]⟩] := by
    rw [statements, withoutMark_of_head (by decide), (reads_import_a (by simp)).lexemes_eq]
    rfl
  have hword :
      Reads (withoutMark ['i', 'm', 'p', 'o', 'r', 't']) (some ' ')
        ([] ++ [.token (.name "import")]) :=
    .single spells_import
  have hrelaid : Relaid source source' :=
    @Relaid.layout ['i', 'm', 'p', 'o', 'r', 't'] ['\\', '\n'] [' ', 'a'] _ _ _ hword
      (.inr ⟨_, rfl⟩) rfl (.continuation .nil) fun _ _ ↦ ⟨'a', by simp, by decide⟩
  refine ⟨htokens, hrelaid, ?_⟩
  rw [@imports_of_relaid .topLevel (String.ofList source) (String.ofList source') _
    (by rwa [String.toList_ofList]) (by rwa [String.toList_ofList, String.toList_ofList]),
    imports_import_a]
  rfl

/-! ## The end of a source -/

/-- The last backslash of layout outside brackets ends a line, and nothing but blanks stands behind
that. -/
theorem Layout.exists_last {inside : Prop} {gap : List Char} (h : Layout inside gap)
    (hinside : ¬inside) (hslash : '\\' ∈ gap) :
    ∃ gap₁ gap₂, gap = gap₁ ++ '\\' :: '\n' :: gap₂ ∧ Layout inside gap₁ ∧
      ∀ c ∈ gap₂, Text.isBlank c = true := by
  induction h with
  | nil => simp at hslash
  | @blank c hc gap _ ih =>
    have hne : '\\' ≠ c := by rcases hc with rfl | rfl | rfl <;> decide
    obtain ⟨gap₁, gap₂, rfl, h₁, h₂⟩ := ih ((List.mem_cons.mp hslash).resolve_left hne)
    exact ⟨c :: gap₁, gap₂, rfl, .blank hc h₁, h₂⟩
  | @continuation gap h ih =>
    by_cases hmore : '\\' ∈ gap
    · obtain ⟨gap₁, gap₂, rfl, h₁, h₂⟩ := ih hmore
      exact ⟨'\\' :: '\n' :: gap₁, gap₂, rfl, .continuation h₁, h₂⟩
    · exact ⟨[], gap, rfl, .nil, h.isBlank hinside hmore⟩
  | lineEnd hin | comment hin => exact absurd hin hinside

/-- A backslash before the blanks at the end of a source ends no line once these are cut off, so the
source is refused. -/
theorem imports_of_dangling (scope : Scope) {front gap back : List Char} {ls : List Lexeme}
    {l : Lexeme} {a : Assembly} (h : Reads (withoutMark front) back.head? (ls ++ [l]))
    (hl : l = .semicolon ∨ ∃ t, l = .token t)
    (ha : Assembly.start.run (numbered 1 (ls ++ [l])) = .ok a) (houtside : a.waiting = [])
    (hgap : Layout (a.waiting ≠ []) gap) (hslash : '\\' ∈ gap)
    (hback : ∀ c ∈ back, isBlank c = true) :
    (imports scope (String.ofList (front ++ (gap ++ back)))).toOption = none := by
  obtain ⟨gap₁, gap₂, rfl, hgap₁, hgap₂⟩ := hgap.exists_last (by simp [houtside]) hslash
  have htrim :
      trimEnd (front ++ (gap₁ ++ '\\' :: '\n' :: gap₂ ++ back)) = front ++ (gap₁ ++ ['\\']) := by
    have hblank : trimEnd ('\n' :: gap₂ ++ back) = [] := by
      refine trimEnd_eq_nil_iff.mpr (List.forall_mem_append.mpr ⟨?_, hback⟩)
      exact List.forall_mem_cons.mpr ⟨by decide, hgap₂⟩
    have := trimEnd_append_cons (c := '\\') (by decide) (front ++ gap₁) ('\n' :: gap₂ ++ back)
    rw [hblank] at this
    simpa using this
  have hfront : front ≠ [] := by
    rintro rfl
    exact h.ne_nil rfl
  obtain ⟨ms, hms, hrun⟩ := hgap₁.exists_reads
  have hseparated : Reads (withoutMark front) (gap₁ ++ ['\\']).head? (ls ++ [l]) := by
    refine h.before_separator hl ?_
    cases gap₁ with
    | nil => simpa using by decide
    | cons c gap₁ => simpa using hgap₁.separates_of_head
  have hstray (line : Nat) : lexemes line ['\\'] = [(line, .malformed .strayBackslash)] := by
    rw [lexemes, show lexeme '\\' [] = (.malformed .strayBackslash, []) from rfl, lexemes]
  rw [toOption_imports, String.toList_ofList, htrim, withoutMark_append (.inl hfront),
    hseparated.lexemes, (hms _).lexemes, hstray, Assembly.outcome_append_of_run ha,
    Assembly.outcome_append_of_run (hrun a (Assembly.fresh_of_run hl ha) id _)]
  rfl

/-- A vertical tab is a token to the lexer, and a blank that is cut off at the end of a source. So
in `import a` with a vertical tab behind it a token follows the second word, but a line end behind a
backslash does not go before it. -/
theorem imports_before_vertical_tab :
    let front := ['i', 'm', 'p', 'o', 'r', 't', ' ', 'a']
    statements (front ++ ['\x0b']) = .ok [⟨1, false, false, [.name "import", .name "a", .other]⟩] ∧
      imports .topLevel (String.ofList (front ++ ['\x0b'])) = .ok ["a"] ∧
      (imports .topLevel (String.ofList (front ++ (['\\', '\n'] ++ ['\x0b'])))).toOption =
        none := by
  intro front
  have htab : Spells ['\x0b'] none (.token .other) := .mark (by decide) (by simp)
  have hreads :
      Reads (front ++ ['\x0b']) none
        [.token (.name "import"), .blank, .token (.name "a"), .token .other] :=
    .append (reads_import_a (by simpa using by decide)) (.single htab)
  refine ⟨?_, ?_, ?_⟩
  · rw [statements, withoutMark_of_head (by decide), hreads.lexemes_eq]
    rfl
  · have htrim :
        imports .topLevel (String.ofList (front ++ ['\x0b'])) =
          imports .topLevel (String.ofList front) := by
      rw [imports, imports, String.toList_ofList, String.toList_ofList,
        show trimEnd (front ++ ['\x0b']) = trimEnd front from by decide]
    rw [htrim, imports_import_a]
  · exact @imports_of_dangling .topLevel _ _ _ [.token (.name "import"), .blank] _ _
      (reads_import_a (by simpa using by decide)) (.inr ⟨_, rfl⟩) rfl rfl (.continuation .nil)
      (by simp)
      (by simpa using by decide)

end ModuleReload.Source
