import Hoist.Program
import Hoist.Proofs.Spelling
import Mathlib.Data.List.Infix

namespace Hoist

/-- What can stand between two tokens: blanks and whole comments. At the end of a text a comment may
go up to that end. -/
inductive Gap (last : Bool) : List Char → Prop
  | nil : Gap last []
  | blank {c : Char} {cs : List Char} (hc : isBlank c = true) (h : Gap last cs) : Gap last (c :: cs)
  | line (body : List Char) {cs : List Char} (hb : '\n' ∉ body) (h : Gap last cs) :
    Gap last ('/' :: '/' :: (body ++ '\n' :: cs))
  | block (body : List Char) {cs : List Char} (hb : ¬ ['*', '/'] <:+: body) (h : Gap last cs) :
    Gap last ('/' :: '*' :: (body ++ '*' :: '/' :: cs))
  | lastLine {body : List Char} (hl : last = true) (hb : '\n' ∉ body) : Gap last ('/' :: '/' :: body)

/-- What can stand after the opening quote of a string, and what it stands for. -/
inductive Quoted (quote : Char) : List Char → List Char → Prop
  | nil : Quoted quote [] []
  | plain {c : Char} {cs value : List Char} (hq : c ≠ quote) (hn : c ≠ '\n') (hs : c ≠ '\\')
    (h : Quoted quote cs value) : Quoted quote (c :: cs) (c :: value)
  | escaped {e : Char} {cs value : List Char} (h : Quoted quote cs value) :
    Quoted quote ('\\' :: e :: cs) (unescaped e :: value)

/-- Whether a character opens and closes strings. -/
def isQuote (c : Char) : Bool := c = '"' ∨ c = '\x27'

/-- A text that is one token. -/
inductive Lexeme : List Char → TokenKind → Prop
  | word {c : Char} {cs : List Char} (hc : isNameStart c = true) (h : ∀ d ∈ cs, isNamePart d = true) :
    Lexeme (c :: cs) (.ofWord (String.ofList (c :: cs)))
  | whole {c : Char} {cs : List Char} (h : ∀ d ∈ c :: cs, d.isDigit = true) :
    Lexeme (c :: cs) (.number (.ofPlaces (c :: cs) []))
  | fraction {c d : Char} {cs ds : List Char} (h : ∀ e ∈ c :: cs, e.isDigit = true)
    (hd : ∀ e ∈ d :: ds, e.isDigit = true) :
    Lexeme (c :: cs ++ '.' :: d :: ds) (.number (.ofPlaces (c :: cs) (d :: ds)))
  | text {quote : Char} {body value : List Char} (hq : isQuote quote = true)
    (h : Quoted quote body value) : Lexeme (quote :: body ++ [quote]) (.text (String.ofList value))
  | mark (m : Mark) : Lexeme m.spelling.toList (.mark m)

theorem Lexeme.ne_nil {cs : List Char} {kind : TokenKind} (h : Lexeme cs kind) : cs ≠ [] := by
  cases h with
  | mark m => cases m <;> decide
  | _ => simp

theorem TokenKind.ofWord_ne_mark (word : String) (m : Mark) : ofWord word ≠ .mark m := by
  unfold ofWord
  split <;> simp

/-- A text that is made of gaps and tokens up to the end of a token, and the tokens with their
places. -/
inductive Segmented : List Char → List Token → Prop
  | nil : Segmented [] []
  | token {read gap lexeme : List Char} {ts : List Token} {kind : TokenKind} (h : Segmented read ts)
    (hg : Gap false gap) (hl : Lexeme lexeme kind) :
    Segmented (read ++ gap ++ lexeme) (ts ++
      [⟨kind, Position.start.after (read ++ gap), Position.start.after (read ++ gap ++ lexeme)⟩])

/-- Why a text does not begin with a token or with a whole comment. A number is never why: what is
taken as one can be read. -/
inductive Broken : List Char → Cause → Prop
  | comment {body : List Char} (h : ¬ ['*', '/'] <:+: body) :
    Broken ('/' :: '*' :: body) .unterminatedComment
  | ending {quote : Char} {body value : List Char} (hq : isQuote quote = true)
    (h : Quoted quote body value) : Broken (quote :: body) .unterminatedString
  | escape {quote : Char} {body value : List Char} (hq : isQuote quote = true)
    (h : Quoted quote body value) : Broken (quote :: body ++ ['\\']) .unterminatedString
  | newline {quote : Char} {body value rest : List Char} (hq : isQuote quote = true)
    (h : Quoted quote body value) : Broken (quote :: body ++ '\n' :: rest) .unterminatedString
  | stray {c : Char} {rest : List Char} (h : ∀ lexeme kind, lexeme <+: c :: rest → ¬ Lexeme lexeme kind) :
    Broken (c :: rest) (strayCharacter c)

theorem Broken.ne_invalidNumber {cs : List Char} {cause : Cause} (h : Broken cs cause) (text : String) :
    cause ≠ .invalidNumber text := by
  cases h with
  | stray =>
    unfold strayCharacter
    split
    · exact Cause.noConfusion
    · split <;> exact Cause.noConfusion
  | _ => exact Cause.noConfusion

/-- A text by which a gap can be opened so that it is where the state is. -/
def GapState.opening : GapState → List Char
  | .between => []
  | .lineComment => ['/', '/']
  | .blockComment _ star => '/' :: '*' :: if star then ['*'] else []

theorem isBlank_slash : isBlank '/' = false := by decide

/-- A comment that was not closed by a character is not closed where that was none either. -/
theorem unclosed_cons {c : Char} {star : Bool} {body : List Char} (hc : ¬ (c = '/' ∧ star = true))
    (h : ¬ ['*', '/'] <:+: (if c = '*' then ['*'] else []) ++ body) :
    ¬ ['*', '/'] <:+: (if star then ['*'] else []) ++ c :: body := by
  have hbody : ¬ ['*', '/'] <:+: body := fun hi => h (hi.trans (List.suffix_append _ _).isInfix)
  have hcons : ¬ ['*', '/'] <:+: c :: body := by
    by_cases hstar : c = '*'
    · simpa [hstar] using h
    · rw [List.infix_cons_iff, not_or]
      exact ⟨fun hp => hstar (List.cons_prefix_cons.mp hp).1.symm, hbody⟩
  cases star with
  | false => exact hcons
  | true =>
    change ¬ ['*', '/'] <:+: '*' :: c :: body
    rw [List.infix_cons_iff, not_or]
    refine ⟨fun hp => hc ⟨?_, rfl⟩, hcons⟩
    exact (List.cons_prefix_cons.mp (List.cons_prefix_cons.mp hp).2).1.symm

section Gaps

variable {last : Bool} {c : Char} {gap : List Char}

/-- A character of a line comment. -/
theorem Gap.line_cons (h : Gap last ('/' :: '/' :: gap)) (hc : c ≠ '\n') :
    Gap last ('/' :: '/' :: c :: gap) := by
  generalize he : '/' :: '/' :: gap = cs at h
  cases h with
  | blank hb =>
    cases he
    rw [isBlank_slash] at hb
    cases hb
  | line _ hb h =>
    cases he
    exact .line (c :: _) (by simpa [hb] using hc.symm) h
  | lastLine hl hb =>
    cases he
    exact .lastLine hl (by simpa [hb] using hc.symm)
  | nil | block => cases he

/-- A block comment ends at its first end. -/
theorem Gap.block_closed (h : Gap last ('/' :: '*' :: gap)) :
    ∃ body cs, gap = body ++ '*' :: '/' :: cs ∧ ¬ ['*', '/'] <:+: body ∧ Gap last cs := by
  generalize he : '/' :: '*' :: gap = cs at h
  cases h with
  | blank hb =>
    cases he
    rw [isBlank_slash] at hb
    cases hb
  | block _ hb h =>
    cases he
    exact ⟨_, _, rfl, hb, h⟩
  | nil | line | lastLine => cases he

/-- A character of a block comment that does not end it. -/
theorem Gap.block_cons {star : Bool} (hc : ¬ (c = '/' ∧ star = true))
    (h : Gap last ('/' :: '*' :: ((if c = '*' then ['*'] else []) ++ gap))) :
    Gap last ('/' :: '*' :: ((if star then ['*'] else []) ++ c :: gap)) := by
  obtain ⟨body, cs, hgap, hbody, hcs⟩ := h.block_closed
  by_cases hstar : c = '*'
  · subst hstar
    rw [if_pos rfl, List.singleton_append] at hgap
    cases body with
    | nil =>
      rw [List.nil_append] at hgap
      rw [hgap]
      exact .block _ (by cases star <;> decide) hcs
    | cons d body =>
      obtain ⟨rfl, rfl⟩ := List.cons.inj hgap
      have hclosed := Gap.block _ (unclosed_cons hc hbody) hcs
      rwa [List.append_assoc, List.cons_append] at hclosed
  · rw [if_neg hstar, List.nil_append] at hgap
    have hclosed := Gap.block _ (unclosed_cons hc (by rwa [if_neg hstar])) hcs
    rwa [List.append_assoc, List.cons_append, ← hgap] at hclosed

end Gaps

/-- What is skipped is a gap, and the place after it is reached. At the end of the text a comment may
go up to that end. -/
theorem skipGap_gap {g : GapState} {p q : Position} {cs ds : List Char}
    (h : skipGap g p cs = .ok (q, ds)) :
    ∃ gap, cs = gap ++ ds ∧ q = p.after gap ∧ Gap ds.isEmpty (g.opening ++ gap) := by
  fun_induction skipGap g p cs with
  | case1 p cs ih =>
    obtain ⟨gap, rfl, rfl, hgap⟩ := ih h
    exact ⟨'/' :: '/' :: gap, rfl, rfl, hgap⟩
  | case2 p cs ih =>
    obtain ⟨gap, rfl, rfl, hgap⟩ := ih h
    exact ⟨'/' :: '*' :: gap, rfl, rfl, hgap⟩
  | case3 p c cs _ _ hb ih =>
    obtain ⟨gap, rfl, rfl, hgap⟩ := ih h
    exact ⟨c :: gap, rfl, rfl, .blank hb hgap⟩
  | case4 =>
    cases h
    exact ⟨[], rfl, rfl, .nil⟩
  | case5 =>
    cases h
    exact ⟨[], rfl, rfl, .nil⟩
  | case6 p c cs ih =>
    obtain ⟨gap, rfl, rfl, hgap⟩ := ih h
    refine ⟨c :: gap, rfl, rfl, ?_⟩
    by_cases hc : c = '\n'
    · subst hc
      exact .line [] List.not_mem_nil hgap
    · rw [if_neg hc] at hgap
      exact hgap.line_cons hc
  | case7 =>
    cases h
    exact ⟨[], rfl, rfl, .lastLine rfl List.not_mem_nil⟩
  | case8 opened star p c cs hc ih =>
    obtain ⟨gap, rfl, rfl, hgap⟩ := ih h
    obtain ⟨rfl, rfl⟩ := hc
    exact ⟨'/' :: gap, rfl, rfl, .block [] (by decide) hgap⟩
  | case9 opened star p c cs hc ih =>
    obtain ⟨gap, rfl, rfl, hgap⟩ := ih h
    refine ⟨c :: gap, rfl, rfl, Gap.block_cons hc ?_⟩
    simpa [GapState.opening] using hgap
  | case10 => cases h

/-- Where skipping fails there is a gap and then a comment that is not closed, perhaps the one that
skipping began in. -/
theorem skipGap_broken {g : GapState} {p : Position} {cs : List Char} {problem : Problem}
    (h : skipGap g p cs = .error problem) :
    (∃ gap rest, cs = gap ++ rest ∧ Gap false (g.opening ++ gap) ∧ Broken rest problem.cause ∧
      problem.span.start = p.after gap) ∨
    ∃ opened star, g = .blockComment opened star ∧ problem.cause = .unterminatedComment ∧
      problem.span.start = opened ∧ ¬ ['*', '/'] <:+: (if star then ['*'] else []) ++ cs := by
  fun_induction skipGap g p cs with
  | case1 p cs ih =>
    obtain ⟨gap, rest, rfl, hgap, hrest⟩ | ⟨_, _, hg, _⟩ := ih h
    · exact .inl ⟨'/' :: '/' :: gap, rest, rfl, hgap, hrest⟩
    · cases hg
  | case2 p cs ih =>
    obtain ⟨gap, rest, rfl, hgap, hrest⟩ | ⟨opened, star, hg, hcause, hstart, hopen⟩ := ih h
    · exact .inl ⟨'/' :: '*' :: gap, rest, rfl, hgap, hrest⟩
    · cases hg
      refine .inl ⟨[], '/' :: '*' :: cs, rfl, .nil, ?_, hstart⟩
      rw [hcause]
      exact .comment hopen
  | case3 p c cs _ _ hb ih =>
    obtain ⟨gap, rest, rfl, hgap, hrest⟩ | ⟨_, _, hg, _⟩ := ih h
    · exact .inl ⟨c :: gap, rest, rfl, .blank hb hgap, hrest⟩
    · cases hg
  | case4 | case5 | case7 => cases h
  | case6 p c cs ih =>
    obtain ⟨gap, rest, rfl, hgap, hrest⟩ | ⟨_, _, hg, _⟩ := ih h
    · refine .inl ⟨c :: gap, rest, rfl, ?_, hrest⟩
      by_cases hc : c = '\n'
      · subst hc
        exact .line [] List.not_mem_nil hgap
      · rw [if_neg hc] at hgap
        exact hgap.line_cons hc
    · split at hg <;> cases hg
  | case8 opened star p c cs hc ih =>
    obtain ⟨gap, rest, rfl, hgap, hrest⟩ | ⟨_, _, hg, _⟩ := ih h
    · obtain ⟨rfl, rfl⟩ := hc
      exact .inl ⟨'/' :: gap, rest, rfl, .block [] (by decide) hgap, hrest⟩
    · cases hg
  | case9 opened star p c cs hc ih =>
    obtain ⟨gap, rest, rfl, hgap, hrest⟩ | ⟨_, _, hg, hcause, hstart, hopen⟩ := ih h
    · refine .inl ⟨c :: gap, rest, rfl, Gap.block_cons hc ?_, hrest⟩
      simpa [GapState.opening] using hgap
    · cases hg
      exact .inr ⟨opened, star, rfl, hcause, hstart, unclosed_cons hc (by simpa using hopen)⟩
  | case10 opened star p =>
    cases h
    exact .inr ⟨opened, star, rfl, rfl, rfl, by cases star <;> decide⟩

/-- What was scanned is a token in front of a text, and the place after it is reached. -/
def Scanned.Splits {n : Nat} (scanned : Scanned n) (p : Position) (cs : List Char) : Prop :=
  ∃ lexeme, cs = lexeme ++ scanned.rest ∧ scanned.finish = p.after lexeme ∧
    Lexeme lexeme scanned.kind

section Lexemes

variable {p : Position} {c : Char} {cs : List Char}

theorem scanWord_splits (hc : isNameStart c = true) : (scanWord p c cs).Splits p (c :: cs) := by
  obtain ⟨hcs, hrun⟩ := takeRun_split isNamePart cs
  exact ⟨c :: (takeRun isNamePart cs).1, congrArg (c :: ·) hcs, rfl, .word hc hrun⟩

theorem lexeme_places {whole fraction : List Char} (hne : whole ≠ [])
    (hwhole : ∀ c ∈ whole, c.isDigit = true) (hfraction : ∀ c ∈ fraction, c.isDigit = true) :
    Lexeme (placesText whole fraction) (.number (.ofPlaces whole fraction)) := by
  obtain ⟨c, cs, rfl⟩ := List.exists_cons_of_ne_nil hne
  cases fraction with
  | nil => exact .whole hwhole
  | cons d ds => exact .fraction hwhole hfraction

theorem scanNumber_splits (hc : c.isDigit = true) {scanned : Scanned (cs.length + 1)}
    (h : scanNumber p c cs = .ok scanned) : scanned.Splits p (c :: cs) := by
  obtain ⟨whole, fraction, hlt, hscan, hcs, hne, hwhole, hfraction⟩ := scanNumber_places p hc cs
  rw [hscan] at h
  cases h
  exact ⟨placesText whole fraction, hcs, rfl, lexeme_places hne hwhole hfraction⟩

/-- What was scanned after an opening quote is a string up to its closing quote. -/
theorem scanStringTail_quoted_of_ok {start q : Position} {quote : Char} {value rest : List Char}
    (h : scanStringTail start quote p cs = .ok (value, q, rest)) :
    ∃ body, cs = body ++ quote :: rest ∧ q = p.after (body ++ [quote]) ∧ Quoted quote body value := by
  fun_induction scanStringTail start quote p cs generalizing value with
  | case1 | case3 | case4 | case6 | case8 => cases h
  | case2 p cs =>
    cases h
    exact ⟨[], rfl, rfl, .nil⟩
  | case5 _ e ds _ _ _ _ _ heq ih =>
    cases h
    obtain ⟨body, rfl, rfl, hbody⟩ := ih heq
    exact ⟨'\\' :: e :: body, rfl, rfl, .escaped hbody⟩
  | case7 p c cs hq hn hs value q rest heq ih =>
    cases h
    obtain ⟨body, rfl, rfl, hbody⟩ := ih heq
    exact ⟨c :: body, rfl, rfl, .plain hq hn hs hbody⟩

/-- Where no closing quote is found the text ends, perhaps in the middle of an escape, or a line does. -/
theorem scanStringTail_broken {start : Position} {quote : Char} {problem : Problem}
    (h : scanStringTail start quote p cs = .error problem) :
    problem.cause = .unterminatedString ∧ problem.span.start = start ∧
      ∃ body value, Quoted quote body value ∧
        (cs = body ∨ cs = body ++ ['\\'] ∨ ∃ rest, cs = body ++ '\n' :: rest) := by
  fun_induction scanStringTail start quote p cs with
  | case1 =>
    cases h
    exact ⟨rfl, rfl, [], [], .nil, .inl rfl⟩
  | case2 | case5 | case7 => cases h
  | case3 p cs =>
    cases h
    exact ⟨rfl, rfl, [], [], .nil, .inr (.inr ⟨cs, rfl⟩)⟩
  | case4 =>
    cases h
    exact ⟨rfl, rfl, [], [], .nil, .inr (.inl rfl)⟩
  | case6 _ e ds _ _ _ heq ih =>
    cases h
    obtain ⟨hcause, hstart, body, value, hbody, hds⟩ := ih heq
    refine ⟨hcause, hstart, '\\' :: e :: body, _, .escaped hbody, ?_⟩
    obtain rfl | rfl | ⟨rest, rfl⟩ := hds
    · exact .inl rfl
    · exact .inr (.inl rfl)
    · exact .inr (.inr ⟨rest, rfl⟩)
  | case8 p c cs hq hn hs _ heq ih =>
    cases h
    obtain ⟨hcause, hstart, body, value, hbody, hcs⟩ := ih heq
    refine ⟨hcause, hstart, c :: body, _, .plain hq hn hs hbody, ?_⟩
    obtain rfl | rfl | ⟨rest, rfl⟩ := hcs
    · exact .inl rfl
    · exact .inr (.inl rfl)
    · exact .inr (.inr ⟨rest, rfl⟩)

/-- A mark is scanned as it is spelled. -/
theorem scanMark?_spelling {m : Mark} {more : Nat} (h : scanMark? c cs = some (m, more)) :
    c :: cs.take more = m.spelling.toList := by
  unfold scanMark? at h
  split at h <;> first | (cases h; rfl) | cases h

/-- The characters that are marks by themselves, whatever follows. -/
def markStarts : List Char :=
  ['(', ')', '\x7b', '\x7d', '[', ']', ';', ',', '.', '?', ':', '=', '!', '<', '>', '+', '-', '*', '/', '%']

theorem scanMark?_none (h : scanMark? c cs = none) :
    c ∉ markStarts ∧ ¬ ['&', '&'] <+: c :: cs ∧ ¬ ['|', '|'] <+: c :: cs := by
  unfold scanMark? at h
  split at h <;> cases h
  rename_i hand hor
  refine ⟨?_, ?_, ?_⟩
  · simp only [markStarts, List.mem_cons, List.not_mem_nil, or_false, not_or]
    and_intros <;> assumption
  · rintro ⟨rest, hrest⟩
    obtain ⟨rfl, rfl⟩ := List.cons.inj hrest
    exact hand rest rfl rfl
  · rintro ⟨rest, hrest⟩
    obtain ⟨rfl, rfl⟩ := List.cons.inj hrest
    exact hor rest rfl rfl

theorem Mark.start_cases (m : Mark) :
    m.spelling.toList = ['&', '&'] ∨ m.spelling.toList = ['|', '|'] ∨ m.chars.1 ∈ markStarts := by
  cases m <;> decide

/-- Where no mark is scanned none begins the text. -/
theorem not_prefix_of_scanMark? (h : scanMark? c cs = none) (m : Mark) :
    ¬ m.spelling.toList <+: c :: cs := by
  obtain ⟨hc, hand, hor⟩ := scanMark?_none h
  intro hp
  obtain hm | hm | hm := m.start_cases
  · exact hand (hm ▸ hp)
  · exact hor (hm ▸ hp)
  · rw [m.spelling_chars, List.cons_prefix_cons] at hp
    exact hc (hp.1 ▸ hm)

/-- Where no token is scanned the text does not begin with one, or with a string that is not closed. -/
theorem scanToken_broken {problem : Problem} (h : scanToken p c cs = .error problem) :
    Broken (c :: cs) problem.cause ∧ problem.span.start = p := by
  unfold scanToken at h
  split at h
  · cases h
  · rename_i hname
    split at h
    · rename_i hdigit
      obtain ⟨_, _, _, hscan, -⟩ := scanNumber_places p hdigit cs
      rw [hscan] at h
      cases h
    · rename_i hdigit
      split at h
      · rename_i hquote
        have hq : isQuote c = true := decide_eq_true hquote
        unfold scanString at h
        split at h
        · cases h
        · rename_i htail
          cases h
          obtain ⟨hcause, hstart, body, value, hbody, hcs⟩ := scanStringTail_broken htail
          rw [hcause]
          obtain rfl | rfl | ⟨rest, rfl⟩ := hcs
          · exact ⟨.ending hq hbody, hstart⟩
          · exact ⟨.escape hq hbody, hstart⟩
          · exact ⟨.newline hq hbody, hstart⟩
      · rename_i hquote
        split at h
        · cases h
        · rename_i hmark
          cases h
          refine ⟨.stray fun lexeme kind hp hl => ?_, rfl⟩
          cases hl with
          | word hc => exact hname ((List.cons_prefix_cons.mp hp).1 ▸ hc)
          | whole hd =>
            exact hdigit ((List.cons_prefix_cons.mp hp).1 ▸ hd _ List.mem_cons_self)
          | fraction hd =>
            exact hdigit ((List.cons_prefix_cons.mp hp).1 ▸ hd _ List.mem_cons_self)
          | text hq =>
            exact hquote (of_decide_eq_true ((List.cons_prefix_cons.mp hp).1 ▸ hq))
          | mark m => exact not_prefix_of_scanMark? hmark m hp

/-- A token that is scanned is the one in front of the text. -/
theorem scanToken_splits {scanned : Scanned (cs.length + 1)} (h : scanToken p c cs = .ok scanned) :
    scanned.Splits p (c :: cs) := by
  unfold scanToken at h
  split at h
  · rename_i hname
    cases h
    exact scanWord_splits hname
  · split at h
    · rename_i hdigit
      exact scanNumber_splits hdigit h
    · split at h
      · rename_i hquote
        unfold scanString at h
        split at h
        · rename_i htail
          cases h
          obtain ⟨body, rfl, rfl, hbody⟩ := scanStringTail_quoted_of_ok htail
          exact ⟨c :: body ++ [c], by simp, rfl, .text (decide_eq_true hquote) hbody⟩
        · cases h
      · split at h
        · rename_i m more hmark
          cases h
          refine ⟨c :: cs.take more, by simp, rfl, ?_⟩
          rw [scanMark?_spelling hmark]
          exact .mark m
        · cases h

end Lexemes

/-- One step of scanning adds a gap and a token to what was segmented. -/
theorem Segmented.scanned {read cs ds : List Char} {ts : List Token} {q : Position} {c : Char}
    {scanned : Scanned (ds.length + 1)} (hread : Segmented read ts)
    (hgap : skipGap .between (Position.start.after read) cs = .ok (q, c :: ds))
    (hscan : scanToken q c ds = .ok scanned) : ∃ more, cs = more ++ scanned.rest ∧
      scanned.finish = Position.start.after (read ++ more) ∧
        Segmented (read ++ more) (ts ++ [⟨scanned.kind, q, scanned.finish⟩]) := by
  obtain ⟨gap, rfl, rfl, hg⟩ := skipGap_gap hgap
  obtain ⟨lexeme, hds, hfinish, hl⟩ := scanToken_splits hscan
  rw [← Position.after_append] at hfinish ⊢
  rw [← Position.after_append] at hfinish
  refine ⟨gap ++ lexeme, ?_, ?_, ?_⟩
  · rw [hds, List.append_assoc]
  · exact hfinish
  · rw [hfinish, ← List.append_assoc]
    exact hread.token hg hl

/-- Scanning goes on where what was read ends, and what it gives goes on what was segmented. -/
theorem scanTokens_segmented {read cs : List Char} {ts : List Token} {list : TokenList}
    (hread : Segmented read ts) (h : scanTokens (Position.start.after read) cs = .ok list) :
    ∃ more gap, cs = more ++ gap ∧ Segmented (read ++ more) (ts ++ list.tokens) ∧ Gap true gap ∧
      list.finish = Position.start.after (read ++ cs) := by
  generalize hp : Position.start.after read = p at h
  fun_induction scanTokens p cs generalizing read ts list with
  | case1 | case3 | case4 => cases h
  | case2 p cs q hgap =>
    cases h
    obtain ⟨gap, rfl, rfl, hg⟩ := skipGap_gap hgap
    rw [List.append_nil]
    exact ⟨[], gap, rfl, by simpa using hread, hg, by rw [← hp, Position.after_append]⟩
  | case5 p cs q c ds hgap _ scanned hscan rest hrest ih =>
    cases h
    subst hp
    obtain ⟨more, rfl, hfinish, hsegmented⟩ := hread.scanned hgap hscan
    obtain ⟨further, last, hmore, hall, hlast, hend⟩ := ih hsegmented hfinish.symm hrest
    refine ⟨more ++ further, last, ?_, ?_, hlast, ?_⟩
    · rw [hmore, List.append_assoc]
    · simpa only [List.append_assoc, List.singleton_append] using hall
    · rw [hend, List.append_assoc]

/-- Where scanning fails the text goes on for a while with gaps and tokens, and the place of the failure
is the one after them. -/
theorem scanTokens_broken {read cs : List Char} {ts : List Token} {problem : Problem}
    (hread : Segmented read ts) (h : scanTokens (Position.start.after read) cs = .error problem) :
    ∃ more gap rest ts', cs = more ++ gap ++ rest ∧ Segmented (read ++ more) ts' ∧ Gap false gap ∧
      Broken rest problem.cause ∧ problem.span.start = Position.start.after (read ++ more ++ gap) := by
  generalize hp : Position.start.after read = p at h
  fun_induction scanTokens p cs generalizing read ts with
  | case2 | case5 => cases h
  | case1 p cs _ hgap =>
    cases h
    obtain ⟨gap, rest, rfl, hg, hbroken, hstart⟩ | ⟨_, _, hstate, -⟩ := skipGap_broken hgap
    · refine ⟨[], gap, rest, ts, rfl, by simpa using hread, hg, hbroken, ?_⟩
      rw [hstart, ← hp, List.append_nil, Position.after_append]
    · cases hstate
  | case3 p cs q c ds hgap _ _ hscan =>
    cases h
    obtain ⟨gap, rfl, rfl, hg⟩ := skipGap_gap hgap
    obtain ⟨hbroken, hstart⟩ := scanToken_broken hscan
    refine ⟨[], gap, c :: ds, ts, rfl, by simpa using hread, hg, hbroken, ?_⟩
    rw [hstart, ← hp, List.append_nil, Position.after_append]
  | case4 p cs q c ds hgap _ scanned hscan _ hrest ih =>
    cases h
    subst hp
    obtain ⟨more, rfl, hfinish, hsegmented⟩ := hread.scanned hgap hscan
    obtain ⟨further, gap, rest, ts', hmore, hall, hg, hbroken, hstart⟩ :=
      ih hsegmented hfinish.symm hrest
    refine ⟨more ++ further, gap, rest, ts', ?_, ?_, hg, hbroken, ?_⟩
    · rw [hmore]
      simp only [List.append_assoc]
    · rwa [← List.append_assoc]
    · rw [hstart, List.append_assoc read]

/-- Tokens are never refused for a number. -/
theorem tokenize_ne_invalidNumber {text number : String} {problem : Problem}
    (h : tokenize text = .error problem) : problem.cause ≠ .invalidNumber number := by
  obtain ⟨_, _, _, _, _, _, _, hbroken, _⟩ := scanTokens_broken .nil h
  exact hbroken.ne_invalidNumber number

end Hoist
