import ModuleReload.Proofs.Source.Grammar
import ModuleReload.Proofs.Source.Lines

/-!
# What imports are found by

Imports are found by names, marks and brackets, by where statements begin, and by nothing else. The
*outline* of a statement keeps that: it forgets the line of the statement and the contents of its
literals. Two sources whose statements have the same outlines have the same imports, or none of them
can be had of either (`importedBy_outline`).

Assemblies have outlines too, and each step works on them alone (`Assembly.step_outline`). So
whether the statements of two sources have the same outlines is seen by running their lexemes
without lines and contents (`Assembly.outcome_congr`).
-/

namespace ModuleReload.Source

/-! ## Outlines -/

namespace Token

def blur : Token → Token
  | literal _ => literal ""
  | t => t

@[simp] theorem blur_blur (t : Token) : t.blur.blur = t.blur := by
  cases t <;> rfl

@[simp] theorem blur_closing (b : Bracket) : (closing b).blur = closing b := rfl

@[simp] theorem blur_colon : colon.blur = colon := rfl

theorem blur_eq_iff {t u : Token} (hu : ∀ s, u ≠ literal s) : t.blur = u ↔ t = u := by
  cases t with
  | literal s => exact ⟨fun h ↦ absurd h.symm (hu ""), fun h ↦ absurd h.symm (hu s)⟩
  | _ => exact Iff.rfl

theorem head?_map_blur {u : Token} (hu : ∀ s, u ≠ literal s) (ts : List Token) :
    (ts.map blur).head? = some u ↔ ts.head? = some u := by
  cases ts with
  | nil => simp
  | cons t ts => simp [blur_eq_iff hu]

theorem map_blur_eq_self {ts : List Token} (h : ∀ t ∈ ts, ∀ s, t ≠ literal s) :
    ts.map blur = ts := by
  rw [List.map_congr_left fun t ht ↦ (blur_eq_iff (h t ht)).mpr rfl, List.map_id']

theorem startsCompound_map_blur (ts : List Token) :
    startsCompound (ts.map blur) = startsCompound ts := by
  cases ts with
  | nil => rfl
  | cons t ts => cases t <;> rfl

theorem blockBodyFrom_map_blur (depth : Nat) (ts : List Token) :
    blockBodyFrom depth (ts.map blur) = (blockBodyFrom depth ts).map (List.map blur) := by
  have hequals (us : List Token) : (us.map blur).head? ≠ some equals ↔ us.head? ≠ some equals :=
    not_congr (head?_map_blur (by simp) us)
  fun_induction blockBodyFrom depth ts with
  | case1 => rfl
  | case2 _ _ _ ih => exact ih
  | case3 _ _ _ ih => exact ih
  | case4 depth ts hcolon hempty =>
    rw [List.isEmpty_iff.mp hempty]
    simp [blur, blockBodyFrom]
  | case5 depth ts hcolon hempty =>
    rw [List.map_cons, blur_colon, blockBodyFrom, if_pos (hcolon.imp_right (hequals ts).mpr),
      List.isEmpty_map, if_neg hempty]
    rfl
  | case6 depth ts hcolon ih =>
    rw [List.map_cons, blur_colon, blockBodyFrom,
      if_neg fun h ↦ hcolon (h.imp_right (hequals ts).mp), ih]
  | case7 depth t ts hopening hclosing hcolon ih =>
    cases t with
    | opening b => exact absurd rfl (hopening b)
    | closing b => exact absurd rfl (hclosing b)
    | colon => exact absurd rfl hcolon
    | _ => exact ih

theorem blockBody_map_blur (ts : List Token) :
    blockBody (ts.map blur) = (blockBody ts).map (List.map blur) :=
  blockBodyFrom_map_blur 0 ts

theorem opensBlock_map_blur (ts : List Token) : opensBlock (ts.map blur) = opensBlock ts := by
  rw [opensBlock, opensBlock, startsCompound_map_blur, blockBody_map_blur, Option.isSome_map]

end Token

def Lexeme.blur : Lexeme → Lexeme
  | token t => token t.blur
  | l => l

/-- The statement without its line and the contents of its literals. -/
def Statement.outline (s : Statement) : Statement :=
  { s with line := 0, tokens := s.tokens.map Token.blur }

/-! ## Imports -/

namespace Grammar

theorem Alias.ne_literal {ts : List Token} (h : Alias ts) : ∀ t ∈ ts, ∀ s, t ≠ .literal s := by
  rintro t ht s rfl
  simpa using h.mem _ ht

theorem MemberItem.ne_literal {ts : List Token} {n : String} (h : MemberItem ts n) :
    ∀ t ∈ ts, ∀ s, t ≠ .literal s := by
  rintro t ht s rfl
  simpa using h.mem _ ht

theorem Dotted.ne_literal {ts : List Token} {ns : List String} (h : Dotted ts ns) :
    ∀ t ∈ ts, ∀ s, t ≠ .literal s := by
  rintro t ht s rfl
  simpa using h.name_or_dot _ ht

theorem ModuleItem.ne_literal {ts : List Token} {origin : List String} (h : ModuleItem ts origin) :
    ∀ t ∈ ts, ∀ s, t ≠ .literal s := by
  obtain ⟨hd, ha⟩ := h
  exact List.forall_mem_append.mpr ⟨hd.ne_literal, ha.ne_literal⟩

theorem Members.ne_literal {ts : List Token} {names : List String} (h : Members ts names) :
    ∀ t ∈ ts, ∀ s, t ≠ .literal s := by
  have hlisted {us : List Token} {ns : List String} (hus : Listed MemberItem us ns) :
      ∀ t ∈ us, ∀ s, t ≠ .literal s :=
    hus.forall_mem (by simp) fun _ _ h ↦ h.ne_literal
  cases h with
  | star => simp
  | bare h => exact hlisted h
  | bracketed h hlast =>
    have hend : ∀ t ∈ [Token.closing .round], ∀ s, t ≠ .literal s := by simp
    refine List.forall_mem_cons.mpr ⟨by simp, ?_⟩
    refine List.forall_mem_append.mpr ⟨List.forall_mem_append.mpr ⟨hlisted h, ?_⟩, hend⟩
    rcases hlast with rfl | rfl <;> simp

theorem Derives.ne_literal {ts : List Token} {names : List String} (h : Derives ts names) :
    ∀ t ∈ ts, ∀ s, t ≠ .literal s := by
  have hdots (level : Nat) : ∀ t ∈ List.replicate level Token.dot, ∀ s, t ≠ .literal s := by
    intro t ht
    rw [List.eq_of_mem_replicate ht]
    simp
  cases h with
  | modules h =>
    exact List.forall_mem_cons.mpr ⟨by simp, h.forall_mem (by simp) fun _ _ h ↦ h.ne_literal⟩
  | members level hd _ h =>
    refine List.forall_mem_cons.mpr ⟨by simp, List.forall_mem_append.mpr ⟨?_, ?_⟩⟩
    · exact List.forall_mem_append.mpr ⟨hdots level, hd.ne_literal⟩
    · exact List.forall_mem_cons.mpr ⟨by simp, h.ne_literal⟩
  | siblings level _ h =>
    refine List.forall_mem_cons.mpr ⟨by simp, List.forall_mem_append.mpr ⟨hdots level, ?_⟩⟩
    exact List.forall_mem_cons.mpr ⟨by simp, h.ne_literal⟩

theorem derives_map_blur_iff {ts : List Token} {names : List String} :
    Derives (ts.map Token.blur) names ↔ Derives ts names := by
  constructor
  · intro h
    have hblur : ∀ t ∈ ts, ∀ s, t ≠ .literal s := by
      rintro _ ht s rfl
      exact h.ne_literal _ (List.mem_map_of_mem ht) "" rfl
    rwa [Token.map_blur_eq_self hblur] at h
  · intro h
    rwa [Token.map_blur_eq_self h.ne_literal]

end Grammar

theorem toOption_congr {ε α : Type} {x y : Except ε α} (h : ∀ a, x = .ok a ↔ y = .ok a) :
    x.toOption = y.toOption := by
  cases x with
  | ok a => rw [(h a).mp rfl]
  | error e =>
    cases y with
    | ok b => simpa using (h b).mpr rfl
    | error e' => rfl

theorem Import.ofTokens?_eq_none_iff {ts : List Token} :
    ofTokens? ts = none ↔ ts.head? ≠ some (.name "import") ∧ ts.head? ≠ some (.name "from") := by
  rw [ofTokens?.eq_def]
  split
  · simp
  · simp
  · next himport hfrom =>
    refine ⟨fun _ ↦ ⟨fun h ↦ ?_, fun h ↦ ?_⟩, fun _ ↦ rfl⟩
    · obtain ⟨us, rfl⟩ := List.head?_eq_some_iff.mp h
      exact himport us rfl
    · obtain ⟨us, rfl⟩ := List.head?_eq_some_iff.mp h
      exact hfrom us rfl

theorem Import.ofTokens?_map_blur_eq_none_iff (ts : List Token) :
    ofTokens? (ts.map Token.blur) = none ↔ ofTokens? ts = none := by
  simp only [ofTokens?_eq_none_iff, ne_eq, Token.head?_map_blur (u := .name _) (by simp)]

theorem importedNames_map_blur (scope : Scope) (ts : List Token) :
    (importedNames scope (ts.map Token.blur)).toOption = (importedNames scope ts).toOption := by
  fun_induction importedNames scope ts with
  | case1 ts parsed hparsed =>
    obtain ⟨parsed', hparsed'⟩ :
        ∃ parsed', Import.ofTokens? (ts.map Token.blur) = some parsed' := by
      refine Option.ne_none_iff_exists'.mp fun hnone ↦ ?_
      rw [Import.ofTokens?_map_blur_eq_none_iff, hparsed] at hnone
      exact absurd hnone (by simp)
    rw [importedNames, hparsed']
    refine toOption_congr fun names ↦ ?_
    rw [Import.ofTokens?_derives hparsed, Import.ofTokens?_derives hparsed',
      Grammar.derives_map_blur_iff]
  | case2 ts hnone hscope body hbody ih =>
    have hbody' : Token.blockBody (ts.map Token.blur) = some (body.map Token.blur) := by
      rw [Token.blockBody_map_blur, hbody]
      rfl
    rw [importedNames, (Import.ofTokens?_map_blur_eq_none_iff ts).mpr hnone]
    dsimp only
    rw [Token.startsCompound_map_blur, if_pos hscope]
    split
    · next heq =>
      obtain rfl := Option.some.inj (heq.symm.trans hbody')
      exact ih
    · next heq => simp [hbody'] at heq
  | case3 ts hnone hscope hbody =>
    have hbody' : Token.blockBody (ts.map Token.blur) = none := by
      rw [Token.blockBody_map_blur, hbody]
      rfl
    rw [importedNames, (Import.ofTokens?_map_blur_eq_none_iff ts).mpr hnone]
    dsimp only
    rw [Token.startsCompound_map_blur, if_pos hscope]
    split
    · next heq => simp [hbody'] at heq
    · rfl
  | case4 ts hnone hscope =>
    rw [importedNames, (Import.ofTokens?_map_blur_eq_none_iff ts).mpr hnone]
    dsimp only
    rw [Token.startsCompound_map_blur, if_neg hscope]

theorem toOption_importedBy_cons (scope : Scope) (s : Statement) (ss : List Statement) :
    (importedBy scope (s :: ss)).toOption =
      if scope.covers s then
        (importedNames scope s.tokens).toOption.bind fun names ↦ (importedBy scope ss).toOption.map
        (names ++ ·)
      else (importedBy scope ss).toOption := by
  rw [importedBy]
  split
  case isFalse => rfl
  case isTrue =>
    cases importedNames scope s.tokens with
    | error fault => rfl
    | ok names => cases importedBy scope ss <;> rfl

theorem importedBy_outline (scope : Scope) (ss : List Statement) :
    (importedBy scope (ss.map Statement.outline)).toOption = (importedBy scope ss).toOption := by
  induction ss with
  | nil => rfl
  | cons s ss ih =>
    have hcovers : scope.covers s.outline = scope.covers s := rfl
    have hnames :
        (importedNames scope s.outline.tokens).toOption = (importedNames scope s.tokens).toOption :=
      importedNames_map_blur scope s.tokens
    rw [List.map_cons, toOption_importedBy_cons, toOption_importedBy_cons, hcovers, hnames, ih]

/-! ## Assemblies -/

namespace Assembly

/-- The assembly without lines and the contents of literals. -/
def outline (a : Assembly) : Assembly where
  complete := a.complete.map Statement.outline
  draft := a.draft.outline
  waiting := a.waiting.map fun w ↦ (w.1, 0)
  fresh := a.fresh

theorem outline_outline (a : Assembly) : a.outline.outline = a.outline := by
  simp [outline, Statement.outline, Function.comp_def]

theorem settled_outline (a : Assembly) : a.outline.settled = a.settled.map Statement.outline := by
  have htokens : a.outline.draft.tokens = a.draft.tokens.map Token.blur := rfl
  rw [settled, settled, htokens, List.isEmpty_map]
  split
  · rfl
  · simp [outline, Statement.outline]

theorem isEmpty_waiting_outline (a : Assembly) : a.outline.waiting.isEmpty = a.waiting.isEmpty := by
  simp [outline]

theorem outline_push_outline (a : Assembly) (t : Token) :
    (a.outline.push t.blur).outline = (a.push t).outline := by
  simp [outline, push, Statement.outline, Function.comp_def]

theorem outline_settled_outline (a : Assembly) :
    a.outline.settled.map Statement.outline = a.settled.map Statement.outline := by
  rw [settled_outline]
  simp [Statement.outline, Function.comp_def]

theorem step_outline (a : Assembly) (line : Nat) (l : Lexeme) :
    (a.outline.step 0 l.blur).toOption.map outline = (a.step line l).toOption.map outline := by
  have hfresh (b : Bool) :
      ({ a.outline with fresh := b } : Assembly).outline = { a.outline with fresh := b } :=
    congrArg (fun o : Assembly ↦ ({ o with fresh := b } : Assembly)) a.outline_outline
  -- Outlines do not differ where the next statement begins on another line.
  have hbegun (line line' : Nat) (indented nested fresh : Bool) :
      outline ⟨a.outline.settled, begun line indented nested, [], fresh⟩ =
        outline ⟨a.settled, begun line' indented nested, [], fresh⟩ :=
    congrArg (fun ss ↦ Assembly.mk ss (begun 0 indented nested) [] fresh) a.outline_settled_outline
  have hopens :
      Token.opensBlock a.outline.draft.tokens.reverse =
        Token.opensBlock a.draft.tokens.reverse := by
    rw [← Token.opensBlock_map_blur a.draft.tokens.reverse, List.map_reverse]
    rfl
  cases l with
  | carriageReturn | comment | continuation => exact congrArg some (hfresh false)
  | blank =>
    refine congrArg some ?_
    simp [outline, Statement.outline, Function.comp_def]
  | malformed fault => rfl
  | lineEnd =>
    simp only [step, Lexeme.blur, isEmpty_waiting_outline]
    split
    · exact congrArg some (hbegun _ _ _ _ _)
    · exact congrArg some (hfresh false)
  | semicolon =>
    simp only [step, Lexeme.blur, isEmpty_waiting_outline, hopens]
    split
    · exact congrArg some (hbegun _ _ _ _ _)
    · exact congrArg some (a.outline_push_outline .other)
  | token t =>
    cases t with
    | opening b =>
      refine congrArg some ?_
      simp [outline, push, Statement.outline, Function.comp_def]
    | closing b =>
      cases hwaiting : a.waiting with
      | nil =>
        have houtline : a.outline.waiting = [] := by rw [outline, hwaiting, List.map_nil]
        simp only [step, Lexeme.blur, Token.blur_closing, hwaiting, houtline]
        rfl
      | cons w waiting =>
        have houtline : a.outline.waiting = (w.1, 0) :: waiting.map fun w ↦ (w.1, 0) := by
          rw [outline, hwaiting, List.map_cons]
        simp only [step, Lexeme.blur, Token.blur_closing, hwaiting, houtline]
        split
        · refine congrArg some ?_
          simp [outline, push, Statement.outline, Function.comp_def]
        · rfl
    | _ => exact congrArg some (a.outline_push_outline _)

variable {a b : Assembly}

theorem step_congr (h : a.outline = b.outline) (i j : Nat) {l m : Lexeme} (hl : l.blur = m.blur) :
    (a.step i l).toOption.map outline = (b.step j m).toOption.map outline := by
  rw [← step_outline a i l, ← step_outline b j m, h, hl]

/-- Runs over lexemes that differ in lines and the contents of literals end in the same outline, if
they end. -/
theorem run_congr (h : a.outline = b.outline) {ls ms : List (Nat × Lexeme)}
    (hl : ls.map (fun l ↦ l.2.blur) = ms.map fun m ↦ m.2.blur) :
    (a.run ls).toOption.map outline = (b.run ms).toOption.map outline := by
  induction ls generalizing a b ms with
  | nil =>
    obtain rfl := List.map_eq_nil_iff.mp hl.symm
    exact congrArg some h
  | cons l ls ih =>
    obtain ⟨m, ms, rfl, hhead, htail⟩ := List.map_eq_cons_iff.mp hl.symm
    have hstep := step_congr h l.1 m.1 hhead.symm
    rw [run_cons, run_cons]
    cases ha : a.step l.1 l.2 with
    | error e =>
      cases hb : b.step m.1 m.2 with
      | error e' => rfl
      | ok b' => simp [ha, hb, Except.toOption] at hstep
    | ok a' =>
      cases hb : b.step m.1 m.2 with
      | error e' => simp [ha, hb, Except.toOption] at hstep
      | ok b' =>
        rw [ha, hb] at hstep
        exact ih (Option.some.inj hstep) htail.symm

theorem finish_congr (h : a.outline = b.outline) :
    a.finish.toOption.map (List.map Statement.outline) =
      b.finish.toOption.map (List.map Statement.outline) := by
  have hwaiting : a.waiting.isEmpty = b.waiting.isEmpty := by
    rw [← isEmpty_waiting_outline a, ← isEmpty_waiting_outline b, h]
  have hsettled : a.settled.map Statement.outline = b.settled.map Statement.outline := by
    rw [← settled_outline a, ← settled_outline b, h]
  rw [finish, finish]
  cases ha : a.waiting with
  | nil =>
    cases hb : b.waiting with
    | nil =>
      refine congrArg some ?_
      rw [List.map_reverse, List.map_reverse, hsettled]
    | cons w waiting => simp [ha, hb] at hwaiting
  | cons w waiting =>
    cases hb : b.waiting with
    | nil => simp [ha, hb] at hwaiting
    | cons w' waiting' => rfl

/-- The outlines of the statements that a run over the lexemes completes. -/
def outcome (a : Assembly) (ls : List (Nat × Lexeme)) : Option (List Statement) :=
  ((a.run ls).toOption.bind fun b ↦ b.finish.toOption).map (List.map Statement.outline)

theorem outcome_congr (h : a.outline = b.outline) {ls ms : List (Nat × Lexeme)}
    (hl : ls.map (fun l ↦ l.2.blur) = ms.map fun m ↦ m.2.blur) : a.outcome ls = b.outcome ms := by
  have hrun := run_congr h hl
  rw [outcome, outcome]
  cases ha : a.run ls with
  | error e =>
    cases hb : b.run ms with
    | error e' => rfl
    | ok b' => simp [ha, hb, Except.toOption] at hrun
  | ok a' =>
    cases hb : b.run ms with
    | error e' => simp [ha, hb, Except.toOption] at hrun
    | ok b' =>
      rw [ha, hb] at hrun
      exact finish_congr (Option.some.inj hrun)

end Assembly

/-! ## Sources -/

theorem toOption_imports (scope : Scope) (source : String) :
    (imports scope source).toOption =
      (Assembly.start.outcome (lexemes 1 (withoutMark (Text.trimEnd source.toList)))).bind
        fun ss ↦ (importedBy scope ss).toOption := by
  rw [imports, statements, Assembly.outcome]
  cases Assembly.start.run (lexemes 1 (withoutMark (Text.trimEnd source.toList))) with
  | error e => rfl
  | ok a =>
    have hrun :
        ((Except.ok a : Except SyntaxError Assembly).toOption.bind fun b ↦ b.finish.toOption) =
      a.finish.toOption := rfl
    rw [hrun]
    dsimp only
    cases a.finish with
    | error e => rfl
    | ok ss => exact (importedBy_outline scope ss).symm

end ModuleReload.Source
