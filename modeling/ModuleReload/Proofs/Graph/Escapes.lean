import Mathlib.Algebra.GroupWithZero.Nat
import Mathlib.Algebra.Order.BigOperators.Group.List
import Mathlib.Algebra.Order.Group.Nat
import Mathlib.Tactic.SplitIfs
import ModuleReload.Proofs.Graph.Legible

/-!
# What reading a drawing uses up

A drawing that is read as marks with its own names has no other names than legible ones
(`legible_of_read`). What comes after a name that is not legible may be read as anything, so the
reader is not followed there; its backslashes are counted. A step of the reader hands all of them
on, unless it takes one with a quotation mark or the end of a line (`step_counts`), and the
statements have no more of anything than the tokens (`weight_le_of_read`). If the names that are
read have all backslashes of the drawing, none was used up. Then no quotation mark was read either,
the names have none, and each of them ends where its quotes do.
-/

namespace ModuleReload.Dot

open ImportGraph

variable {f : String → Nat} {m m' : Mode} {c : Char} {as bs cs : List Char} {t : Token}
  {ts : List Token} {d : Document} {s s' : State}

/-! ## What statements have of tokens -/

/-- A count of something in the texts of a token. -/
def Token.weight (f : String → Nat) : Token → Nat
  | word text => f text
  | quoted text => f text
  | _ => 0

/-- The count in the names of a statement; the settings are left out. -/
def Statement.weight (f : String → Nat) : Statement → Nat
  | node n _ => f n
  | edge tail head _ => f tail + f head
  | group _ ns => (ns.map f).sum

def Document.weight (f : String → Nat) (d : Document) : Nat :=
  f d.title + (d.statements.map (Statement.weight f)).sum

/-- The count in what has been read, without keys and values. -/
def State.weight (f : String → Nat) : State → Nat
  | start | untitled => 0
  | titled title => f title
  | body d | ended d | complete d => d.weight f
  | named d n => d.weight f + f n
  | arrow d tail => d.weight f + f tail
  | joined d tail head => d.weight f + (f tail + f head)
  | bracket d s | key d s _ | value d s _ => d.weight f + s.weight f
  | group d _ ns | groupValue d _ ns _ | groupEnded d _ ns => d.weight f + (ns.map f).sum
  | item d _ ns n => d.weight f + (ns.map f).sum + f n

theorem Token.weight_of_identifier? {n : String} (h : t.identifier? = some n) :
    t.weight f = f n := by
  cases t with
  | word text =>
    rw [identifier?] at h
    split at h
    · cases h
    · rw [← Option.some.inj h, weight]
  | quoted text => rw [← Option.some.inj h, weight]
  | _ => cases h

theorem Document.weight_add (d : Document) (s : Statement) :
    (d.add s).weight f = d.weight f + s.weight f := by
  simp [weight, add, Nat.add_assoc]

theorem Statement.weight_set (s : Statement) (key value : String) :
    (s.set key value).weight f = s.weight f := by
  cases s <;> rfl

theorem weight_of_map_identifier? {next : String → State} {n : Nat}
    (h : t.identifier?.map next = some s) (hnext : ∀ x, (next x).weight f ≤ n + f x) :
    s.weight f ≤ n + t.weight f := by
  obtain ⟨x, hx, rfl⟩ := Option.map_eq_some_iff.mp h
  rw [Token.weight_of_identifier? hx]
  exact hnext x

/-- A token of one kind leads to a state at once, and all others go another way. -/
theorem weight_of_ite {p : Prop} [Decidable p] {other : Option State} {n : Nat}
    (h : (if p then some s else other) = some s') (hs : s.weight f ≤ n)
    (hother : other = some s' → s'.weight f ≤ n) : s'.weight f ≤ n := by
  split_ifs at h
  · exact Option.some.inj h ▸ hs
  · exact hother h

namespace Document

theorem weight_next (h : d.next t = some s) : s.weight f ≤ d.weight f + t.weight f :=
  weight_of_ite h (Nat.le_add_right _ _) fun h ↦ weight_of_ite h (Nat.le_add_right _ _) fun h ↦
    weight_of_map_identifier? h fun _ ↦ le_rfl

theorem weight_after (h : d.after t = some s) : s.weight f ≤ d.weight f + t.weight f :=
  weight_of_ite h (Nat.le_add_right _ _) weight_next

variable {settings : List (String × String)} {ns : List String}

theorem weight_nextIn (h : d.nextIn settings ns t = some s) :
    s.weight f ≤ d.weight f + (ns.map f).sum + t.weight f := by
  refine weight_of_ite h ?_ fun h ↦ weight_of_map_identifier? h fun x ↦ le_rfl
  rw [State.weight, weight_add]
  exact Nat.le_add_right _ _

theorem weight_afterIn (h : d.afterIn settings ns t = some s) :
    s.weight f ≤ d.weight f + (ns.map f).sum + t.weight f :=
  weight_of_ite h (Nat.le_add_right _ _) weight_nextIn

/-- A statement that ends where the next one begins. -/
theorem weight_after_add {st : Statement} (h : (d.add st).after t = some s) :
    s.weight f ≤ d.weight f + st.weight f + t.weight f :=
  (weight_after h).trans_eq (congrArg (· + t.weight f) (weight_add d st))

end Document

theorem State.weight_step (h : s.step t = some s') : s'.weight f ≤ s.weight f + t.weight f := by
  cases s with
  | start => exact weight_of_ite h (Nat.zero_le _) nofun
  | untitled => exact weight_of_map_identifier? h fun x ↦ (Nat.zero_add _).ge
  | titled title => exact weight_of_ite h (Nat.le_add_right _ _) nofun
  | body d => exact Document.weight_next h
  | ended d => exact Document.weight_after h
  | named d n =>
    exact weight_of_ite h (Nat.le_add_right _ _) fun h ↦
      weight_of_ite h (Nat.le_add_right _ _) Document.weight_after_add
  | arrow d tail => exact weight_of_map_identifier? h fun x ↦ (Nat.add_assoc _ _ _).ge
  | joined d tail head => exact weight_of_ite h (Nat.le_add_right _ _) Document.weight_after_add
  | bracket d st =>
    refine weight_of_ite h ?_ fun h ↦ weight_of_map_identifier? h fun x ↦ Nat.le_add_right _ _
    exact (Document.weight_add d st).trans_le (Nat.le_add_right _ _)
  | key d st k => exact weight_of_ite h (Nat.le_add_right _ _) nofun
  | value d st k =>
    refine weight_of_map_identifier? h fun x ↦ ?_
    rw [weight, Statement.weight_set]
    exact Nat.le_add_right _ _
  | group d settings ns => exact Document.weight_nextIn h
  | item d settings ns n =>
    refine weight_of_ite h ?_ fun h ↦ (Document.weight_afterIn h).trans_eq ?_
    · simp only [weight]
      omega
    · simp [weight, Nat.add_assoc]
  | groupValue d settings ns k =>
    exact weight_of_map_identifier? h fun x ↦ Nat.le_add_right _ _
  | groupEnded d settings ns => exact Document.weight_afterIn h
  | complete d => cases h

theorem State.weight_foldlM (h : ts.foldlM State.step s = some s') :
    s'.weight f ≤ s.weight f + (ts.map (Token.weight f)).sum := by
  induction ts generalizing s with
  | nil => exact (congrArg (State.weight f) (Option.some.inj h)).ge
  | cons t ts ih =>
    rw [List.foldlM_cons, Option.bind_eq_bind, Option.bind_eq_some_iff] at h
    obtain ⟨s₁, hstep, h⟩ := h
    have hfirst := weight_step (f := f) hstep
    have hrest := ih h
    rw [List.map_cons, List.sum_cons]
    omega

theorem Document.weight_parse? (h : parse? ts = some d) :
    d.weight f ≤ (ts.map (Token.weight f)).sum := by
  obtain ⟨s, hs, h⟩ := Option.bind_eq_some_iff.mp h
  have hle := State.weight_foldlM (f := f) hs
  cases s with
  | complete d' =>
    obtain rfl := Option.some.inj h
    exact hle.trans_eq (Nat.zero_add _)
  | _ => cases h

theorem weight_statement (mark : Mark) :
    (statement mark).weight f = ((namesIn mark).map f).sum := by
  cases mark with
  | rank ns => rw [namesIn_rank, statement, Statement.weight]
  | _ => rfl

theorem eq_map_statement_of_mapM {sts : List Statement} {marks : List Mark}
    (h : sts.mapM Statement.mark? = some marks) : sts = marks.map statement := by
  induction sts generalizing marks with
  | nil =>
    obtain rfl := Option.some.inj h
    rfl
  | cons st sts ih =>
    simp only [List.mapM_cons, Option.bind_eq_bind, Option.bind_eq_some_iff] at h
    obtain ⟨mark, hmark, marks, hmarks, h⟩ := h
    obtain rfl := Option.some.inj h
    rw [List.map_cons, ← ih hmarks, ← eq_statement_of_mark? hmark]

theorem weight_le_of_read {text : String} {p : Picture} (h : read text = some p)
    (hts : tokens? text = some ts) :
    f p.title + ((p.marks.flatMap namesIn).map f).sum ≤ (ts.map (Token.weight f)).sum := by
  simp only [read, hts, Option.bind_eq_bind, Option.bind_some, Option.bind_eq_some_iff] at h
  obtain ⟨d, hd, marks, hmarks, h⟩ := h
  obtain rfl := Option.some.inj h
  have hnames :
      ((marks.flatMap namesIn).map f).sum = (d.statements.map (Statement.weight f)).sum := by
    rw [eq_map_statement_of_mapM hmarks, List.map_map, List.map_flatMap, List.flatMap,
      List.sum_flatten, List.map_map]
    exact congrArg List.sum (List.map_congr_left fun mark _ ↦ (weight_statement mark).symm)
  have hle := Document.weight_parse? (f := f) hd
  rw [Document.weight, ← hnames] at hle
  exact hle

/-! ## What tokens have of characters -/

def occurrences (c : Char) (text : String) : Nat :=
  text.toList.count c

def occurrencesIn (c : Char) (ts : List Token) : Nat :=
  (ts.map (Token.weight (occurrences c))).sum

namespace Mode

/-- What has been read of the token that is open. -/
def read : Mode → List Char
  | word read | quote read | escape read => read
  | _ => []

/-- The backslashes in what is open. -/
def slashes : Mode → Nat
  | escape read => read.count '\\' + 1
  | m => m.read.count '\\'

end Mode

theorem occurrencesIn_append (c : Char) (ts us : List Token) :
    occurrencesIn c (ts ++ us) = occurrencesIn c ts + occurrencesIn c us := by
  rw [occurrencesIn, List.map_append, List.sum_append]
  rfl

theorem occurrencesIn_word (c : Char) (read : List Char) :
    occurrencesIn c [.word (String.ofList read)] = read.count c := by
  simp [occurrencesIn, Token.weight, occurrences]

theorem occurrencesIn_quoted (c : Char) (read : List Char) :
    occurrencesIn c [.quoted (String.ofList read)] = read.count c := by
  simp [occurrencesIn, Token.weight, occurrences]

/-- Outside of tokens a backslash is not read at all, and a quotation mark opens quotes. -/
theorem enter_counts (h : enter c = some (ts, m)) :
    [c].count '\\' = 0 ∧ m.slashes = 0 ∧ '"' ∉ m.read ∧ ∀ c', occurrencesIn c' ts = 0 := by
  have hslash : c ≠ '\\' := by
    rintro rfl
    have hnone : enter '\\' = none := by decide
    rw [hnone] at h
    cases h
  rw [enter] at h
  split_ifs at h with hquote
  all_goals obtain ⟨rfl, rfl⟩ := Prod.mk.inj (Option.some.inj h)
  all_goals simp [Mode.slashes, Mode.read, occurrencesIn, Token.weight, hslash]
  exact Ne.symm hquote

/-- A step leaves as many backslashes as there are, and then it brings no quotation mark into what
is read; or it uses a backslash up. -/
def StepCounts (m : Mode) (c : Char) (ts : List Token) (m' : Mode) : Prop :=
  (occurrencesIn '\\' ts + m'.slashes = m.slashes + [c].count '\\' ∧
      ('"' ∉ m.read → occurrencesIn '"' ts = 0 ∧ '"' ∉ m'.read)) ∨
    occurrencesIn '\\' ts + m'.slashes < m.slashes + [c].count '\\'

namespace StepCounts

variable {read : List Char}

theorem word (h : (Mode.word read).step c = some (ts, m')) : StepCounts (.word read) c ts m' := by
  rw [Mode.step] at h
  split_ifs at h with hletter
  · obtain ⟨rfl, rfl⟩ := Prod.mk.inj (Option.some.inj h)
    have hquote : c ≠ '"' := by
      rintro rfl
      simp [isLetter] at hletter
    exact .inl ⟨by simp [Mode.slashes, Mode.read, occurrencesIn],
      fun hread ↦ ⟨rfl, by simpa [Mode.read, hquote.symm] using hread⟩⟩
  · obtain ⟨⟨us, m⟩, hr, h⟩ := Option.map_eq_some_iff.mp h
    obtain ⟨rfl, rfl⟩ := Prod.mk.inj h
    obtain ⟨hslash, hslashes, hread, hts⟩ := enter_counts hr
    rw [StepCounts, ← List.singleton_append, occurrencesIn_append, occurrencesIn_append, hts, hts,
      occurrencesIn_word, occurrencesIn_word, hslashes, hslash]
    exact .inl ⟨rfl, fun hword ↦ ⟨List.count_eq_zero.mpr hword, hread⟩⟩

theorem quote (h : (Mode.quote read).step c = some (ts, m')) :
    StepCounts (.quote read) c ts m' := by
  rw [Mode.step] at h
  split_ifs at h with hquote hslash
  · obtain ⟨rfl, rfl⟩ := Prod.mk.inj (Option.some.inj h)
    rw [StepCounts, occurrencesIn_quoted, occurrencesIn_quoted, hquote]
    exact .inl ⟨rfl, fun hread ↦ ⟨List.count_eq_zero.mpr hread, List.not_mem_nil⟩⟩
  · obtain ⟨rfl, rfl⟩ := Prod.mk.inj (Option.some.inj h)
    rw [hslash]
    exact .inl ⟨Nat.zero_add _, fun hread ↦ ⟨rfl, hread⟩⟩
  · obtain ⟨rfl, rfl⟩ := Prod.mk.inj (Option.some.inj h)
    exact .inl ⟨by simp [Mode.slashes, Mode.read, occurrencesIn],
      fun hread ↦ ⟨rfl, by simpa [Mode.read, Ne.symm hquote] using hread⟩⟩

/-- Behind a backslash a quotation mark and the end of a line take it with them. -/
theorem escape (h : (Mode.escape read).step c = some (ts, m')) :
    StepCounts (.escape read) c ts m' := by
  obtain ⟨rfl, rfl⟩ := Prod.mk.inj (Option.some.inj h)
  rw [unescape]
  split_ifs with hquote hline
  · refine .inr ?_
    simp [Mode.slashes, Mode.read, occurrencesIn]
    omega
  · refine .inr ?_
    simp [Mode.slashes, Mode.read, occurrencesIn]
    omega
  · refine .inl ⟨?_, fun hread ↦ ⟨rfl, by simpa [Mode.read, Ne.symm hquote] using hread⟩⟩
    simp [Mode.slashes, Mode.read, occurrencesIn, List.count_cons, Nat.add_comm, Nat.add_left_comm]

end StepCounts

theorem step_counts (h : m.step c = some (ts, m')) : StepCounts m c ts m' := by
  cases m with
  | between =>
    obtain ⟨hslash, hslashes, hread, hts⟩ := enter_counts h
    exact .inl ⟨by rw [hslash, hslashes, hts]; rfl, fun _ ↦ ⟨hts _, hread⟩⟩
  | word read => exact .word h
  | dash =>
    rw [Mode.step] at h
    split_ifs at h with harrow
    obtain ⟨rfl, rfl⟩ := Prod.mk.inj (Option.some.inj h)
    rw [harrow]
    exact .inl ⟨rfl, fun hread ↦ ⟨rfl, hread⟩⟩
  | quote read => exact .quote h
  | escape read => exact .escape h

theorem slashes_lex_le (h : lex m cs = some (ts, m')) :
    occurrencesIn '\\' ts + m'.slashes ≤ m.slashes + cs.count '\\' := by
  induction cs generalizing m ts with
  | nil =>
    obtain ⟨rfl, rfl⟩ := Prod.mk.inj (Option.some.inj h)
    exact (Nat.zero_add _).le
  | cons c cs ih =>
    obtain ⟨us, m₁, vs, hfirst, hrest, rfl⟩ := lex_cons_eq_some_iff.mp h
    have hle := ih hrest
    rw [occurrencesIn_append, ← List.singleton_append, List.count_append]
    rcases step_counts hfirst with ⟨hkept, -⟩ | hlost <;> omega

/-! ## Readings that use no backslash up -/

/-- A text is read, and none of its backslashes is used up. -/
def Keeps (m : Mode) (cs : List Char) (ts : List Token) (m' : Mode) : Prop :=
  lex m cs = some (ts, m') ∧ occurrencesIn '\\' ts + m'.slashes = m.slashes + cs.count '\\'

namespace Keeps

/-- A reading that uses none up uses up none in its first step and none after that. -/
theorem of_cons (h : Keeps m (c :: cs) ts m') :
    ∃ us m₁ vs, m.step c = some (us, m₁) ∧ ts = us ++ vs ∧
      occurrencesIn '\\' us + m₁.slashes = m.slashes + [c].count '\\' ∧
        ('"' ∉ m.read → occurrencesIn '"' us = 0 ∧ '"' ∉ m₁.read) ∧ Keeps m₁ cs vs m' := by
  obtain ⟨hlex, hkept⟩ := h
  obtain ⟨us, m₁, vs, hfirst, hrest, rfl⟩ := lex_cons_eq_some_iff.mp hlex
  have hle := slashes_lex_le hrest
  rw [occurrencesIn_append, ← List.singleton_append, List.count_append] at hkept
  rcases step_counts hfirst with ⟨hfirst', hquote⟩ | hlost
  · exact ⟨us, m₁, vs, hfirst, rfl, hfirst', hquote, hrest, by omega⟩
  · omega

theorem of_append (h : Keeps m (as ++ bs) ts m') {us : List Token} {m₁ : Mode}
    (has : lex m as = some (us, m₁)) : ∃ vs, Keeps m₁ bs vs m' := by
  induction as generalizing m ts us with
  | nil =>
    obtain ⟨rfl, rfl⟩ := Prod.mk.inj (Option.some.inj has)
    exact ⟨ts, h⟩
  | cons a as ih =>
    obtain ⟨us₁, m₂, vs₁, hstep, -, -, -, hrest⟩ := h.of_cons
    obtain ⟨us₂, m₃, vs₂, hstep', has, -⟩ := lex_cons_eq_some_iff.mp has
    obtain ⟨-, rfl⟩ := Prod.mk.inj (Option.some.inj (hstep.symm.trans hstep'))
    exact ih hrest has

theorem quotes_eq_zero (h : Keeps m cs ts m') (hread : '"' ∉ m.read) :
    occurrencesIn '"' ts = 0 ∧ '"' ∉ m'.read := by
  induction cs generalizing m ts with
  | nil =>
    obtain ⟨rfl, rfl⟩ := Prod.mk.inj (Option.some.inj h.1)
    exact ⟨rfl, hread⟩
  | cons c cs ih =>
    obtain ⟨us, m₁, vs, -, rfl, -, hquote, hrest⟩ := h.of_cons
    obtain ⟨hus, hread₁⟩ := hquote hread
    obtain ⟨hvs, hread'⟩ := ih hrest hread₁
    exact ⟨by rw [occurrencesIn_append, hus, hvs], hread'⟩

theorem of_step {us : List Token} {m₁ : Mode} (h : Keeps m (c :: cs) ts m')
    (hstep : m.step c = some (us, m₁)) :
    occurrencesIn '\\' us + m₁.slashes = m.slashes + [c].count '\\' ∧ ∃ vs, Keeps m₁ cs vs m' := by
  obtain ⟨us₁, m₂, vs, hstep', -, hkept, -, hrest⟩ := h.of_cons
  obtain ⟨rfl, rfl⟩ := Prod.mk.inj (Option.some.inj (hstep.symm.trans hstep'))
  exact ⟨hkept, vs, hrest⟩

theorem ne_of_escape {read : List Char} (h : Keeps (.escape read) (c :: cs) ts m') :
    c ≠ '"' ∧ c ≠ '\n' := by
  obtain ⟨hkept, -⟩ := h.of_step (step_escape c read)
  constructor
  · rintro rfl
    simp [Mode.slashes, Mode.read, occurrencesIn, unescape] at hkept
  · rintro rfl
    simp [Mode.slashes, Mode.read, occurrencesIn, unescape] at hkept

theorem isLegible_of_not_mem {read : List Char} (h : Keeps (.quote read) (cs ++ '"' :: bs) ts m')
    (hquote : '"' ∉ cs) : isLegible cs = true ∧ ∃ vs, Keeps .between bs vs m' := by
  fun_induction isLegible cs generalizing read ts with
  | case1 => exact ⟨rfl, (h.of_step (step_quote_quote read)).2⟩
  | case2 =>
    obtain ⟨-, vs, h₁⟩ := h.of_step (step_quote_slash read)
    exact absurd rfl h₁.ne_of_escape.1
  | case3 c cs ih =>
    obtain ⟨-, us, h₁⟩ := h.of_step (step_quote_slash read)
    obtain ⟨-, vs, h₂⟩ := h₁.of_step (step_escape c read)
    obtain ⟨hlegible, hrest⟩ := ih h₂ fun hmem ↦ hquote (by simp [hmem])
    simp [h₁.ne_of_escape, hlegible, hrest]
  | case4 c cs hend hpair ih =>
    have hslash : c ≠ '\\' := ne_slash_of_single hend hpair
    have hc : c ≠ '"' := fun hc ↦ hquote (by simp [hc])
    obtain ⟨-, vs, h₁⟩ := h.of_step (step_quote_of_ne hc hslash read)
    obtain ⟨hlegible, hrest⟩ := ih h₁ fun hmem ↦ hquote (by simp [hmem])
    simp [hc, hlegible, hrest]

/-- In a text of pieces that have no quotation marks in their names, all names are legible. -/
theorem legible_of_mem {ps : List Piece} (h : Keeps .between (ps.flatMap Piece.text) ts m')
    (hquote : ∀ n ∈ ps.flatMap Piece.names, '"' ∉ n.toList) :
    ∀ n ∈ ps.flatMap Piece.names, Legible n := by
  induction ps generalizing ts with
  | nil => simp
  | cons p ps ih =>
    rw [List.flatMap_cons, List.forall_mem_append] at hquote
    rw [List.flatMap_cons] at h
    cases p with
    | plain t =>
      obtain ⟨vs, hrest⟩ := h.of_append t.lex_eq
      exact ih hrest hquote.2
    | name n =>
      have htext : (Piece.name n).text = '"' :: (n.toList ++ ['"']) := by simp [Piece.text, quoted]
      rw [htext, List.cons_append, List.append_assoc, List.singleton_append] at h
      obtain ⟨-, us, hopen⟩ := h.of_step step_between_quote
      obtain ⟨hn, vs, hrest⟩ := hopen.isLegible_of_not_mem (hquote.1 n List.mem_cons_self)
      exact List.forall_mem_cons.mpr ⟨hn, ih hrest hquote.2⟩

end Keeps

/-! ## Drawings -/

variable {g : ImportGraph}

theorem count_slash_text (p : Piece) :
    p.text.count '\\' = (p.names.map (occurrences '\\')).sum := by
  cases p with
  | plain t => exact List.count_eq_zero.mpr t.not_mem
  | name n => simp [Piece.text, Piece.names, quoted, occurrences]

theorem count_slash_draw (g : ImportGraph) :
    g.draw.toList.count '\\' =
      ((g.root.text :: g.marks.flatMap namesIn).map (occurrences '\\')).sum := by
  rw [← flatMap_names_piecesOf, ← flatMap_text_piecesOf, List.count_flatMap, List.map_flatMap,
    List.flatMap, List.sum_flatten, List.map_map]
  exact congrArg List.sum (List.map_congr_left fun p _ ↦ count_slash_text p)

/-- The tokens of a text are those that are complete, with the word that is open at the end. -/
theorem occurrencesIn_of_tokens? {text : String} (h : tokens? text = some ts) :
    ∃ us m, lex .between text.toList = some (us, m) ∧ m.slashes = m.read.count '\\' ∧
      ∀ c, occurrencesIn c ts = occurrencesIn c us + m.read.count c := by
  obtain ⟨⟨us, m⟩, hlex, h⟩ := Option.bind_eq_some_iff.mp h
  refine ⟨us, m, hlex, ?_⟩
  cases m with
  | between =>
    obtain rfl := Option.some.inj h
    exact ⟨rfl, fun c ↦ rfl⟩
  | word read =>
    obtain rfl := Option.some.inj h
    exact ⟨rfl, fun c ↦ by rw [occurrencesIn_append, occurrencesIn_word]; rfl⟩
  | _ => cases h

/-- A drawing that is read as marks with the names of its own has only legible names: what reading
uses up of the backslashes would be missing, and without a backslash there is no quotation mark to
be read. -/
theorem legible_of_read {marks : List Mark} (h : read g.draw = some ⟨g.root.text, marks⟩)
    (hnames : (marks.flatMap namesIn).Perm (g.marks.flatMap namesIn)) :
    ∀ n ∈ (piecesOf g).flatMap Piece.names, Legible n := by
  obtain ⟨ts, hts, -⟩ := Option.bind_eq_some_iff.mp h
  obtain ⟨us, m, hlex, hm, hcount⟩ := occurrencesIn_of_tokens? hts
  have hle (c : Char) : ((g.root.text :: g.marks.flatMap namesIn).map (occurrences c)).sum ≤
      occurrencesIn c us + m.read.count c := by
    rw [← hcount, List.map_cons, List.sum_cons, ← (hnames.map (occurrences c)).sum_eq]
    exact weight_le_of_read h hts
  have hkeeps : Keeps .between ((piecesOf g).flatMap Piece.text) us m := by
    have hslashes := hle '\\'
    have hread := slashes_lex_le hlex
    rw [← count_slash_draw, ← hm] at hslashes
    rw [flatMap_text_piecesOf]
    exact ⟨hlex, le_antisymm hread ((Nat.zero_add _).trans_le hslashes)⟩
  refine hkeeps.legible_of_mem fun n hn ↦ ?_
  obtain ⟨hus, hread⟩ := hkeeps.quotes_eq_zero List.not_mem_nil
  have hquotes := hle '"'
  rw [hus, List.count_eq_zero.mpr hread, ← flatMap_names_piecesOf] at hquotes
  have hn' : occurrences '"' n ≤ _ :=
    List.single_le_sum (fun _ _ ↦ Nat.zero_le _) _ (List.mem_map_of_mem hn)
  exact List.count_eq_zero.mp (Nat.le_zero.mp (hn'.trans hquotes))

end ModuleReload.Dot
