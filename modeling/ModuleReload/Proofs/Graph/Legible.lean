import ModuleReload.Proofs.Graph.Language

/-!
# Names that stand for themselves in quotes

A drawing has its names in quotes as they are. What is read from there is the name if it is legible:
there is no quotation mark in it, and no backslash that would take with it the end of a line or the
quotation mark that closes the name (`isLegible`). A drawing in which all names are legible is read
as its marks (`read_draw`).

A drawing is a list of pieces, each a name or a plain text (`piecesOf`). A plain text comes with
what is read from it, so a drawing is read piece by piece.
-/

namespace ModuleReload.Dot

open ImportGraph

variable {m m' m'' : Mode} {as bs cs : List Char} {ts ts' : List Token} {c : Char} {mark : Mark}
  {g : ImportGraph}

/-! ## Reading in steps -/

theorem lex_cons_eq_some_iff : lex m (c :: cs) = some (ts, m') ↔
    ∃ us m₁ vs, m.step c = some (us, m₁) ∧ lex m₁ cs = some (vs, m') ∧ ts = us ++ vs := by
  simp only [lex, Option.bind_eq_bind, Option.bind_eq_some_iff]
  constructor
  · rintro ⟨⟨us, m₁⟩, hfirst, ⟨vs, m₂⟩, hrest, h⟩
    obtain ⟨rfl, rfl⟩ := Prod.mk.inj (Option.some.inj h)
    exact ⟨us, m₁, vs, hfirst, hrest, rfl⟩
  · rintro ⟨us, m₁, vs, hfirst, hrest, rfl⟩
    exact ⟨(us, m₁), hfirst, (vs, m'), hrest, rfl⟩

theorem lex_cons (h : m.step c = some (ts, m')) (h' : lex m' cs = some (ts', m'')) :
    lex m (c :: cs) = some (ts ++ ts', m'') :=
  lex_cons_eq_some_iff.mpr ⟨ts, m', ts', h, h', rfl⟩

theorem lex_append (h : lex m as = some (ts, m')) (h' : lex m' bs = some (ts', m'')) :
    lex m (as ++ bs) = some (ts ++ ts', m'') := by
  induction as generalizing m ts with
  | nil =>
    obtain ⟨rfl, rfl⟩ := Prod.mk.inj (Option.some.inj h)
    exact h'
  | cons a as ih =>
    obtain ⟨us, m₁, vs, hfirst, hrest, rfl⟩ := lex_cons_eq_some_iff.mp h
    rw [List.append_assoc]
    exact lex_cons hfirst (ih hrest)

/-! ## Texts in quotes -/

/-- Whether a text stands for itself in quotes: there is no quotation mark in it, and of the
backslashes none is left over in front of the end of a line or at the end, where two in a row make
up a pair. -/
def isLegible : List Char → Bool
  | [] => true
  | ['\\'] => false
  | '\\' :: c :: cs => c ≠ '"' && c ≠ '\n' && isLegible cs
  | c :: cs => c ≠ '"' && isLegible cs

/-- A text that stands for itself in quotes. -/
def Legible (s : String) : Prop :=
  isLegible s.toList = true

instance : DecidablePred Legible :=
  fun s ↦ inferInstanceAs (Decidable (isLegible s.toList = true))

theorem unescape_of_ne (hquote : c ≠ '"') (hline : c ≠ '\n') : unescape c = ['\\', c] := by
  rw [unescape, if_neg hquote, if_neg hline]

theorem step_quote_of_ne (hquote : c ≠ '"') (hslash : c ≠ '\\') (read : List Char) :
    (Mode.quote read).step c = some ([], .quote (read ++ [c])) := by
  rw [Mode.step, if_neg hquote, if_neg hslash]

/-- The character in the last case of `isLegible`. -/
theorem ne_slash_of_single (hend : c = '\\' → cs = [] → False)
    (hpair : ∀ (c' : Char) (cs' : List Char), c = '\\' → cs = c' :: cs' → False) : c ≠ '\\' := by
  rintro rfl
  cases cs with
  | nil => exact hend rfl rfl
  | cons c' cs' => exact hpair c' cs' rfl rfl

theorem step_between_quote : Mode.between.step '"' = some ([], .quote []) :=
  rfl

theorem step_quote_quote (read : List Char) :
    (Mode.quote read).step '"' = some ([.quoted (String.ofList read)], .between) :=
  rfl

theorem step_quote_slash (read : List Char) :
    (Mode.quote read).step '\\' = some ([], .escape read) :=
  rfl

theorem step_escape (c : Char) (read : List Char) :
    (Mode.escape read).step c = some ([], .quote (read ++ unescape c)) :=
  rfl

theorem lex_quote (h : isLegible cs = true) (read : List Char) :
    lex (.quote read) (cs ++ ['"']) = some ([.quoted (String.ofList (read ++ cs))], .between) := by
  fun_induction isLegible cs generalizing read with
  | case1 => rw [List.append_nil]; rfl
  | case2 => cases h
  | case3 c cs ih =>
    simp only [Bool.and_eq_true, decide_eq_true_eq] at h
    obtain ⟨⟨hquote, hline⟩, h⟩ := h
    have hread := ih h (read ++ unescape c)
    rw [unescape_of_ne hquote hline, List.append_assoc, List.cons_append, List.singleton_append,
      ← unescape_of_ne hquote hline] at hread
    exact lex_cons (step_quote_slash read) (lex_cons (step_escape c read) hread)
  | case4 c cs hend hpair ih =>
    simp only [Bool.and_eq_true, decide_eq_true_eq] at h
    have hslash := ne_slash_of_single hend hpair
    have hread := ih h.2 (read ++ [c])
    rw [List.append_assoc, List.singleton_append] at hread
    exact lex_cons (step_quote_of_ne h.1 hslash read) hread

theorem lex_quoted {name : String} (h : Legible name) :
    lex .between (quoted name).toList = some ([.quoted name], .between) := by
  have hread := lex_quote h []
  rw [List.nil_append, String.ofList_toList] at hread
  rw [quoted, String.toList_append, String.toList_append]
  exact lex_cons step_between_quote hread

/-! ## Pieces -/

/-- A text that stands outside of quotes, with its tokens. -/
structure Plain where
  text : String
  tokens : List Token
  lex_eq : lex .between text.toList = some (tokens, .between) := by decide
  not_mem : '\\' ∉ text.toList := by decide

namespace Plain

def opening : Plain where
  text := "digraph "
  tokens := [.word "digraph"]

def beginning : Plain where
  text := " \x7b\n"
  tokens := [.symbol '\x7b']

/-- Where the drawing or one of its groups ends. -/
def ending : Plain where
  text := "\x7d\n"
  tokens := [.symbol '\x7d']

def indent : Plain where
  text := "\t"
  tokens := []

def arrow : Plain where
  text := " -> "
  tokens := [.arrow]

def newline : Plain where
  text := "\n"
  tokens := []

def filled : Plain where
  text := " [style=filled]\n"
  tokens := [.symbol '[', .word "style", .symbol '=', .word "filled", .symbol ']']

def dotted : Plain where
  text := " [style=dotted]\n"
  tokens := [.symbol '[', .word "style", .symbol '=', .word "dotted", .symbol ']']

def free : Plain where
  text := " [constraint=false]\n"
  tokens := [.symbol '[', .word "constraint", .symbol '=', .word "false", .symbol ']']

def rank : Plain where
  text := "\t\x7brank=same; "
  tokens := [.symbol '\x7b', .word "rank", .symbol '=', .word "same", .symbol ';']

def blank : Plain where
  text := " "
  tokens := []

end Plain

inductive Piece
  | plain (t : Plain)
  | name (name : String)

namespace Piece

def text : Piece → List Char
  | plain t => t.text.toList
  | .name n => (quoted n).toList

def tokens : Piece → List Token
  | plain t => t.tokens
  | .name n => [.quoted n]

def names : Piece → List String
  | plain _ => []
  | .name n => [n]

end Piece

/-- Names in a row. -/
def row : List String → List Piece
  | [] => []
  | [n] => [.name n]
  | n :: ns => .name n :: .plain .blank :: row ns

def pieces : Mark → List Piece
  | .filled n => [.plain .indent, .name n, .plain .filled]
  | .edge importer imported free =>
    [.plain .indent, .name importer, .plain .arrow, .name imported,
      .plain (if free then .free else .newline)]
  | .member package n => [.plain .indent, .name package, .plain .arrow, .name n, .plain .dotted]
  | .rank ns => .plain .rank :: row ns ++ [.plain .ending]

def piecesOf (g : ImportGraph) : List Piece :=
  .plain .opening :: .name g.root.text :: .plain .beginning :: g.marks.flatMap pieces ++
    [.plain .ending]

def namesIn (mark : Mark) : List String :=
  (pieces mark).flatMap Piece.names

theorem flatMap_text_row (ns : List String) :
    (row ns).flatMap Piece.text = (" ".intercalate (ns.map quoted)).toList := by
  fun_induction row ns with
  | case1 => rfl
  | case2 n => simp [Piece.text]
  | case3 n ns hns ih =>
    obtain ⟨n', ns, rfl⟩ := List.exists_cons_of_ne_nil hns
    rw [List.flatMap_cons, List.flatMap_cons, ih]
    simp [Piece.text, Plain.blank]

theorem flatMap_row {α : Type} {f : Piece → List α} (hblank : f (.plain .blank) = [])
    (ns : List String) : (row ns).flatMap f = ns.flatMap fun n ↦ f (.name n) := by
  fun_induction row ns with
  | case1 => rfl
  | case2 n => rfl
  | case3 n ns hns ih =>
    rw [List.flatMap_cons, List.flatMap_cons, hblank, ih, List.flatMap_cons, List.nil_append]

theorem flatMap_tokens_row (ns : List String) : (row ns).flatMap Piece.tokens = ns.map .quoted :=
  (flatMap_row rfl ns).trans List.map_eq_flatMap.symm

theorem namesIn_rank (ns : List String) : namesIn (.rank ns) = ns := by
  have hrow : (row ns).flatMap Piece.names = ns :=
    (flatMap_row rfl ns).trans (List.flatMap_singleton' ns)
  rw [namesIn, pieces, List.cons_append, List.flatMap_cons, List.flatMap_append, hrow]
  exact List.append_nil ns

theorem flatMap_text_pieces (mark : Mark) :
    (pieces mark).flatMap Piece.text = mark.text.toList := by
  cases mark with
  | filled n => simp [Mark.text, pieces, Piece.text, Plain.indent, Plain.filled]
  | edge importer imported free =>
    cases free <;> simp [Mark.text, pieces, Piece.text, Plain.indent, Plain.arrow, Plain.free,
      Plain.newline]
  | member package n =>
    simp [Mark.text, pieces, Piece.text, Plain.indent, Plain.arrow, Plain.dotted]
  | rank ns =>
    simp [Mark.text, pieces, Piece.text, flatMap_text_row, Plain.rank,
      Plain.ending, -String.toList_intercalate]

theorem flatMap_text_piecesOf (g : ImportGraph) :
    (piecesOf g).flatMap Piece.text = g.draw.toList := by
  have hmarks :
      (g.marks.flatMap pieces).flatMap Piece.text =
        (String.join (g.marks.map Mark.text)).toList := by
    rw [List.flatMap_assoc, String.toList_join, List.flatMap_map]
    simp only [flatMap_text_pieces]
  rw [piecesOf, draw]
  simp [hmarks, Piece.text, Plain.opening, Plain.beginning, Plain.ending]

theorem flatMap_names_piecesOf (g : ImportGraph) :
    (piecesOf g).flatMap Piece.names = g.root.text :: g.marks.flatMap namesIn := by
  have hmarks : (g.marks.flatMap pieces).flatMap Piece.names = g.marks.flatMap namesIn :=
    List.flatMap_assoc
  simp [piecesOf, Piece.names, hmarks]

theorem lex_pieces {ps : List Piece} (h : ∀ n ∈ ps.flatMap Piece.names, Legible n) :
    lex .between (ps.flatMap Piece.text) = some (ps.flatMap Piece.tokens, .between) := by
  induction ps with
  | nil => rfl
  | cons p ps ih =>
    have hps := ih fun n hn ↦ h n (List.mem_append_right _ hn)
    have hp : lex .between p.text = some (p.tokens, .between) := by
      cases p with
      | plain t => exact t.lex_eq
      | name n => exact lex_quoted (h n (by simp [Piece.names]))
    exact lex_append hp hps

/-! ## Statements -/

variable {d : Document} {s : State}

/-- The statement that makes a mark. -/
def statement : Mark → Statement
  | .filled n => .node n [("style", "filled")]
  | .edge importer imported free =>
    .edge importer imported (if free then [("constraint", "false")] else [])
  | .member package n => .edge package n [("style", "dotted")]
  | .rank ns => .group [("rank", "same")] ns

theorem mark?_statement (mark : Mark) : (statement mark).mark? = some mark := by
  cases mark with
  | edge importer imported free => cases free <;> rfl
  | _ => rfl

theorem eq_statement_of_mark? {st : Statement} {mark : Mark} (h : st.mark? = some mark) :
    st = statement mark := by
  unfold Statement.mark? at h
  split at h
  case h_6 => cases h
  all_goals
    obtain rfl := Option.some.inj h
    rfl

/-- The statements of a document have been read, the last one up to settings that may follow. -/
inductive Rests : Document → State → Prop
  | body (d : Document) : Rests d (.body d)
  | ended (d : Document) : Rests d (.ended d)
  | joined (d : Document) (tail head : String) :
      Rests (d.add (.edge tail head [])) (.joined d tail head)

namespace Rests

theorem step_quoted (h : Rests d s) (n : String) : s.step (.quoted n) = some (.named d n) := by
  cases h <;> rfl

theorem step_opening (h : Rests d s) : s.step (.symbol '\x7b') = some (.group d [] []) := by
  cases h <;> rfl

theorem step_ending (h : Rests d s) : s.step (.symbol '\x7d') = some (.complete d) := by
  cases h <;> rfl

end Rests

theorem foldlM_item (ns : List String) (d : Document) (settings : List (String × String))
    (names : List String) (n : String) :
    (ns.map Token.quoted ++ [Token.symbol '\x7d']).foldlM State.step (.item d settings names n) =
      some (.ended (d.add (.group settings (names ++ n :: ns)))) := by
  induction ns generalizing names n with
  | nil => rfl
  | cons n' ns ih =>
    have hstep :
        (State.item d settings names n).step (.quoted n') =
          some (.item d settings (names ++ [n]) n') := rfl
    rw [List.map_cons, List.cons_append, List.foldlM_cons, hstep, Option.bind_eq_bind,
      Option.bind_some, ih, List.append_assoc, List.singleton_append]

theorem foldlM_group (ns : List String) (d : Document) (settings : List (String × String)) :
    (ns.map Token.quoted ++ [Token.symbol '\x7d']).foldlM State.step (.group d settings []) =
      some (.ended (d.add (.group settings ns))) := by
  cases ns with
  | nil => rfl
  | cons n ns => exact foldlM_item ns d settings [] n

theorem Rests.foldlM_mark (h : Rests d s) (mark : Mark) :
    ∃ s', ((pieces mark).flatMap Piece.tokens).foldlM State.step s = some s' ∧
      Rests (d.add (statement mark)) s' := by
  cases mark with
  | filled n =>
    refine ⟨_, ?_, .ended _⟩
    change (s.step (.quoted n)).bind _ = _
    rw [h.step_quoted]
    rfl
  | edge importer imported free =>
    cases free with
    | false =>
      refine ⟨_, ?_, .joined d importer imported⟩
      change (s.step (.quoted importer)).bind _ = _
      rw [h.step_quoted]
      rfl
    | true =>
      refine ⟨_, ?_, .ended _⟩
      change (s.step (.quoted importer)).bind _ = _
      rw [h.step_quoted]
      rfl
  | member package n =>
    refine ⟨_, ?_, .ended _⟩
    change (s.step (.quoted package)).bind _ = _
    rw [h.step_quoted]
    rfl
  | rank ns =>
    refine ⟨_, ?_, .ended _⟩
    have hrow :
        (row ns ++ [Piece.plain .ending]).flatMap Piece.tokens =
          ns.map Token.quoted ++ [.symbol '\x7d'] := by
      rw [List.flatMap_append, flatMap_tokens_row]
      rfl
    rw [pieces, List.cons_append, List.flatMap_cons, hrow, List.foldlM_append]
    change (s.step (.symbol '\x7b')).bind _ >>= _ = _
    rw [h.step_opening]
    exact foldlM_group ns d [("rank", "same")]

theorem Rests.foldlM_marks (h : Rests d s) (marks : List Mark) :
    ∃ s', ((marks.flatMap pieces).flatMap Piece.tokens).foldlM State.step s = some s' ∧
      Rests ⟨d.title, d.statements ++ marks.map statement⟩ s' := by
  induction marks generalizing d s with
  | nil => exact ⟨s, rfl, by simpa using h⟩
  | cons mark marks ih =>
    obtain ⟨s₁, hs₁, h₁⟩ := h.foldlM_mark mark
    obtain ⟨s₂, hs₂, h₂⟩ := ih h₁
    refine ⟨s₂, ?_, by simpa [Document.add] using h₂⟩
    rw [List.flatMap_cons, List.flatMap_append, List.foldlM_append, hs₁]
    exact hs₂

theorem parse?_piecesOf (g : ImportGraph) :
    parse? ((piecesOf g).flatMap Piece.tokens) = some ⟨g.root.text, g.marks.map statement⟩ := by
  obtain ⟨s, hs, h⟩ := (Rests.body ⟨g.root.text, []⟩).foldlM_marks g.marks
  have hmarks : ((piecesOf g).flatMap Piece.tokens).foldlM State.step .start =
      some (.complete ⟨g.root.text, g.marks.map statement⟩) := by
    rw [piecesOf, List.flatMap_append, List.foldlM_append]
    change ((g.marks.flatMap pieces).flatMap Piece.tokens).foldlM State.step
      (.body ⟨g.root.text, []⟩) >>= _ = _
    rw [hs]
    change (s.step (.symbol '\x7d')).bind _ = _
    rw [h.step_ending]
    rfl
  rw [parse?, hmarks]
  rfl

theorem read_draw (h : ∀ n ∈ (piecesOf g).flatMap Piece.names, Legible n) :
    read g.draw = some ⟨g.root.text, g.marks⟩ := by
  have hmarks : (g.marks.map statement).mapM Statement.mark? = some g.marks := by
    have hmark : Statement.mark? ∘ statement = fun mark ↦ pure mark := funext mark?_statement
    rw [List.mapM_map, hmark, List.mapM_pure, List.map_id']
    rfl
  rw [read, tokens?, ← flatMap_text_piecesOf, lex_pieces h, Option.bind_some]
  simp only [Option.bind_eq_bind, Option.bind_some, parse?_piecesOf, hmarks]
  rfl

end ModuleReload.Dot
