import ModuleReload.Proofs.Source.Layout

/-!
# Phrases

Top-level scope leaves the block of a compound statement out, though two readers take part in it.
The tokens behind the colon that ends the header are found by a scan that passes over brackets
(`Token.blockBody_of_header`), and each further statement of the block is told by the semicolon
before it.

A phrase is a row of lexemes whose brackets come in pairs. An assembly puts its tokens behind those
that it has (`Assembly.run_phrase`), and completes a statement at each semicolon between phrases
(`Assembly.run_clauses`).
-/

namespace ModuleReload.Source

variable {ts us : List Token}

/-! ## Headers -/

def Token.isBracket : Token → Bool
  | opening _ => true
  | closing _ => true
  | _ => false

namespace Grammar

inductive Balanced : List Token → Prop
  | nil : Balanced []
  | cons {t : Token} {ts : List Token} (ht : t.isBracket = false) (h : Balanced ts) :
      Balanced (t :: ts)
  | enclosed (b : Bracket) {us ts : List Token} (hin : Balanced us) (h : Balanced ts) :
      Balanced (.opening b :: (us ++ .closing b :: ts))

/-- What may stand between the word of a compound statement and its colon: brackets in pairs, and
outside them no colon that does not begin `:=`. -/
inductive Header : List Token → Prop
  | nil : Header []
  | cons {t : Token} {ts : List Token} (ht : t.isBracket = false) (hcolon : t ≠ .colon)
      (h : Header ts) :
      Header (t :: ts)
  | walrus {ts : List Token} (h : Header ts) : Header (.colon :: .equals :: ts)
  | enclosed (b : Bracket) {us ts : List Token} (hin : Balanced us) (h : Header ts) :
      Header (.opening b :: (us ++ .closing b :: ts))

end Grammar

open ModuleReload.Source.Grammar

namespace Token

theorem blockBodyFrom_balanced (h : Balanced us) (depth : Nat) (ts : List Token) :
    blockBodyFrom (depth + 1) (us ++ ts) = blockBodyFrom (depth + 1) ts := by
  induction h generalizing depth ts with
  | nil => rfl
  | @cons t us ht _ ih =>
    cases t with
    | opening | closing => simp [isBracket] at ht
    | colon => rw [List.cons_append, blockBodyFrom, if_neg (by simp), ih]
    | _ => exact ih depth ts
  | enclosed b _ _ ih₁ ih₂ =>
    rw [List.cons_append, List.append_assoc, List.cons_append, blockBodyFrom, ih₁, blockBodyFrom,
      Nat.add_sub_cancel, ih₂]

theorem blockBodyFrom_header {header : List Token} (h : Header header) (ts : List Token) :
    blockBodyFrom 0 (header ++ ts) = blockBodyFrom 0 ts := by
  induction h with
  | nil => rfl
  | @cons t header ht hcolon _ ih =>
    cases t with
    | opening | closing => simp [isBracket] at ht
    | colon => exact absurd rfl hcolon
    | _ => exact ih
  | walrus _ ih =>
    rw [List.cons_append, List.cons_append, blockBodyFrom, if_neg (by simp)]
    exact ih
  | enclosed b hin _ ih =>
    rw [List.cons_append, List.append_assoc, List.cons_append, blockBodyFrom,
      blockBodyFrom_balanced hin, blockBodyFrom, Nat.add_sub_cancel, ih]

/-- The block of a compound statement is what stands behind the colon after its header. -/
theorem blockBody_of_header {word : String} {header body : List Token} (h : Header header)
    (hbody : body ≠ []) (hequals : body.head? ≠ some .equals) :
    blockBody (.name word :: (header ++ .colon :: body)) = some body := by
  show blockBodyFrom 0 (header ++ .colon :: body) = some body
  rw [blockBodyFrom_header h, blockBodyFrom, if_pos ⟨rfl, hequals⟩, if_neg (by simpa using hbody)]

theorem opensBlock_of_header {word : String} {header body : List Token}
    (hword : word ∈ compoundWords) (h : Header header) (hbody : body ≠ [])
    (hequals : body.head? ≠ some .equals) :
    opensBlock (.name word :: (header ++ .colon :: body)) = true := by
  rw [opensBlock, blockBody_of_header h hbody hequals]
  simpa [startsCompound] using hword

end Token

/-! ## Phrases -/

/-- `Phrase inside ls ts` if the lexemes `ls` are the tokens `ts` with their brackets in pairs, and
space. Line ends and semicolons may stand among them inside brackets only, where the one is space
and the other a token. -/
inductive Phrase : (inside : Bool) → List Lexeme → List Token → Prop
  | nil {inside : Bool} : Phrase inside [] []
  | space {inside : Bool} {l : Lexeme} {ls : List Lexeme} {ts : List Token}
      (hl : l = .blank ∨ l = .carriageReturn ∨ l = .comment ∨ l = .continuation)
      (h : Phrase inside ls ts) :
      Phrase inside (l :: ls) ts
  | lineEnd {ls : List Lexeme} {ts : List Token} (h : Phrase true ls ts) :
      Phrase true (.lineEnd :: ls) ts
  | semicolon {ls : List Lexeme} {ts : List Token} (h : Phrase true ls ts) :
      Phrase true (.semicolon :: ls) (.other :: ts)
  | token {inside : Bool} {t : Token} {ls : List Lexeme} {ts : List Token}
      (ht : t.isBracket = false)
      (h : Phrase inside ls ts) : Phrase inside (.token t :: ls) (t :: ts)
  | enclosed {inside : Bool} (b : Bracket) {ms ls : List Lexeme} {us ts : List Token}
      (hin : Phrase true ms us) (h : Phrase inside ls ts) :
      Phrase inside (.token (.opening b) :: (ms ++ .token (.closing b) :: ls))
        (.opening b :: (us ++ .closing b :: ts))

/-- Phrases with a semicolon between each two. -/
inductive Clauses : List Lexeme → List (List Token) → Prop
  | single {ls : List Lexeme} {ts : List Token} (h : Phrase false ls ts) : Clauses ls [ts]
  | cons {ls ms : List Lexeme} {ts : List Token} {clauses : List (List Token)}
      (h : Phrase false ls ts)
      (hs : Clauses ms clauses) : Clauses (ls ++ .semicolon :: ms) (ts :: clauses)

theorem exists_numbered_append (line : Nat) (ls ms : List Lexeme) :
    ∃ k, numbered line (ls ++ ms) = numbered line ls ++ numbered k ms := by
  induction ls generalizing line with
  | nil => exact ⟨line, rfl⟩
  | cons l ls ih =>
    obtain ⟨k, hk⟩ := ih (line + l.height)
    exact ⟨k, by rw [List.cons_append, numbered, hk, numbered, List.cons_append]⟩

namespace Assembly

variable {a b : Assembly}

def extended (a : Assembly) (ts : List Token) : Assembly :=
  { a with draft := { a.draft with tokens := ts.reverse ++ a.draft.tokens } }

/-- The assembly behind an opening bracket on the given line. -/
def entered (a : Assembly) (b : Bracket) (line : Nat) : Assembly :=
  { a.push (.opening b) with waiting := (b, line) :: a.waiting }

theorem extended_append (a : Assembly) (ts us : List Token) :
    a.extended (ts ++ us) = (a.extended ts).extended us := by
  simp [extended]

theorem extended_cons (a : Assembly) (t : Token) (ts : List Token) :
    a.extended (t :: ts) = (a.extended [t]).extended ts :=
  extended_append a [t] ts

theorem push_of_fresh (hfresh : a.fresh = false) (t : Token) : a.push t = a.extended [t] := by
  obtain ⟨complete, draft, waiting, fresh⟩ := a
  obtain rfl : fresh = false := hfresh
  rfl

theorem settled_extended (h : a.draft.tokens.reverse ++ ts ≠ []) :
    (a.extended ts).settled = { a.draft with tokens := a.draft.tokens.reverse ++ ts } ::
      a.complete := by
  have hne : (a.extended ts).draft.tokens ≠ [] :=
    fun hnil ↦ h (by simpa [extended] using congrArg List.reverse hnil)
  rw [settled, if_neg (by simpa using hne)]
  simp [extended]

theorem run_of_step {line : Nat} {l : Lexeme} (h : a.step line l = .ok b) (ls : List Lexeme) :
    a.run (numbered line (l :: ls)) = b.run (numbered (line + l.height) ls) := by
  rw [numbered, run_cons, h]
  rfl

theorem run_append_of_run {ls : List (Nat × Lexeme)} (h : a.run ls = .ok b)
    (ms : List (Nat × Lexeme)) : a.run (ls ++ ms) = b.run ms := by
  rw [run_append, h]
  rfl

theorem step_carriageReturn (hfresh : a.fresh = false) (line : Nat) :
    a.step line .carriageReturn = .ok a := by
  obtain ⟨complete, draft, waiting, fresh⟩ := a
  obtain rfl : fresh = false := hfresh
  rfl

theorem step_token (hfresh : a.fresh = false) (line : Nat) {t : Token} (ht : t.isBracket = false) :
    a.step line (.token t) = .ok (a.extended [t]) := by
  rw [← push_of_fresh hfresh]
  cases t with
  | opening | closing => simp [Token.isBracket] at ht
  | _ => rfl

theorem step_closing {b : Bracket} (hfresh : a.fresh = false) (i j : Nat) (us : List Token) :
    ((a.entered b i).extended us).step j (.token (.closing b)) =
      .ok (a.extended (.opening b :: (us ++ [.closing b]))) := by
  obtain ⟨complete, draft, waiting, fresh⟩ := a
  obtain rfl : fresh = false := hfresh
  simp [step, entered, extended, push]

theorem run_phrase {inside : Bool} {ls : List Lexeme} (h : Phrase inside ls ts)
    (hfresh : a.fresh = false) (hinside : inside = true → a.waiting ≠ []) (line : Nat) :
    a.run (numbered line ls) = .ok (a.extended ts) := by
  induction h generalizing a line with
  | nil => rfl
  | @space inside l ls ts hl _ ih =>
    have hstep : a.step line l = .ok a := by
      rcases hl with rfl | rfl | rfl | rfl
      · exact step_of_layout hfresh line (.inl rfl)
      · exact step_carriageReturn hfresh line
      · exact step_of_layout hfresh line (.inr (.inl rfl))
      · exact step_of_layout hfresh line (.inr (.inr (.inl rfl)))
    rw [run_of_step hstep]
    exact ih hfresh hinside _
  | lineEnd _ ih =>
    rw [run_of_step (step_of_layout hfresh line (.inr (.inr (.inr ⟨rfl, hinside rfl⟩))))]
    exact ih hfresh hinside _
  | @semicolon ls ts _ ih =>
    have hstep : a.step line .semicolon = .ok (a.extended [.other]) := by
      rw [← push_of_fresh hfresh, step, if_neg (by simpa using hinside rfl)]
    rw [run_of_step hstep, extended_cons a .other ts]
    exact @ih (a.extended [.other]) hfresh hinside _
  | @token inside t ls ts ht _ ih =>
    rw [run_of_step (step_token hfresh line ht), extended_cons a t ts]
    exact @ih (a.extended [t]) hfresh hinside _
  | @enclosed inside b ms ls us ts _ _ ih₁ ih₂ =>
    obtain ⟨k, hk⟩ := exists_numbered_append line ms (.token (.closing b) :: ls)
    have hopening : a.step line (.token (.opening b)) = .ok (a.entered b line) := rfl
    have hin : (a.entered b line).run (numbered line ms) = .ok ((a.entered b line).extended us) :=
      ih₁ rfl (fun _ ↦ List.cons_ne_nil _ _) line
    have htokens :
        Token.opening b :: (us ++ .closing b :: ts) = (.opening b :: (us ++ [.closing b])) ++
          ts := by simp
    rw [run_of_step hopening, show line + (Lexeme.token (.opening b)).height = line from rfl, hk,
      run_append_of_run hin, run_of_step (step_closing hfresh line k us), htokens, extended_append]
    exact @ih₂ (a.extended _) hfresh hinside _

/-- Behind its first clause a line is read into statements of their own, nested if the first clause
opens a block. -/
theorem run_clauses {ls : List Lexeme} {first : List Token} {further : List (List Token)}
    (h : Clauses ls (first :: further)) (hfresh : a.fresh = false) (hwaiting : a.waiting = [])
    (hfirst : a.draft.tokens.reverse ++ first ≠ []) (hfurther : ∀ ts ∈ further, ts ≠ [])
    (hnested : a.draft.nested = true ∨ Token.opensBlock (a.draft.tokens.reverse ++ first) = true)
    (line : Nat) :
    ∃ (b : Assembly) (ss : List Statement), a.run (numbered line ls) = .ok b ∧ b.waiting = [] ∧
      b.settled = ss.reverse ++ { a.draft with tokens := a.draft.tokens.reverse ++ first } ::
      a.complete ∧
      ss.map Statement.tokens = further ∧ ∀ s ∈ ss, s.nested = true := by
  generalize hclauses : first :: further = clauses at h
  induction h generalizing a line first further with
  | single h =>
    obtain ⟨rfl, rfl⟩ := List.cons.inj hclauses
    exact ⟨a.extended first, [], run_phrase h hfresh (by simp) line, hwaiting,
      settled_extended hfirst, rfl, by simp⟩
  | @cons ls ms ts clauses h hs ih =>
    obtain ⟨rfl, rfl⟩ := List.cons.inj hclauses
    obtain ⟨second, further', rfl⟩ : ∃ second further', further = second :: further' := by
      cases hs <;> exact ⟨_, _, rfl⟩
    obtain ⟨hsecond, hfurther⟩ := List.forall_mem_cons.mp hfurther
    obtain ⟨k, hk⟩ := exists_numbered_append line ls (.semicolon :: ms)
    -- The semicolon completes the clause and begins a nested statement.
    have hnested' : (a.draft.nested || Token.opensBlock (a.draft.tokens.reverse ++ first)) =
        true := by
      simpa using hnested
    have hstep : (a.extended first).step k .semicolon =
        .ok ⟨(a.extended first).settled, begun k a.draft.indented true, [], false⟩ := by
      have htokens : (a.extended first).draft.tokens.reverse = a.draft.tokens.reverse ++ first := by
        simp [extended]
      rw [step, if_pos (by simpa [extended] using hwaiting), htokens]
      show Except.ok _ = _
      rw [← hnested']
      rfl
    obtain ⟨b, ss, hrun, hb, hsettled, hss, hall⟩ :=
      @ih ⟨(a.extended first).settled, begun k a.draft.indented true, [], false⟩ second further' rfl
        rfl hsecond
        hfurther (.inl rfl) k rfl
    refine ⟨b, { begun k a.draft.indented true with tokens := second } :: ss, ?_, hb, ?_, ?_, ?_⟩
    · rw [hk, run_append_of_run (run_phrase h hfresh (by simp) line), run_of_step hstep]
      exact hrun
    · rw [hsettled, settled_extended hfirst]
      simp [begun]
    · rw [List.map_cons, hss]
    · exact List.forall_mem_cons.mpr ⟨rfl, hall⟩

end Assembly

end ModuleReload.Source
