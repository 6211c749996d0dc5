import Hoist.CharRanges
import Hoist.NameChar
import Hoist.NumberReading
import Hoist.Problem

namespace Hoist

/-- What a blank stretch of text is in the middle of. -/
inductive GapState
  | between
  | lineComment
  /-- Where the comment was opened, and whether the last character was a star. -/
  | blockComment (opened : Position) (star : Bool)

/-- Skips blanks and comments, and gives the place and the text that follow. -/
def skipGap : GapState → Position → List Char → Except Problem (Position × List Char)
  | .between, p, '/' :: '/' :: cs =>
    skipGap .lineComment ((p.advance '/').advance '/') cs
  | .between, p, '/' :: '*' :: cs =>
    skipGap (.blockComment p false) ((p.advance '/').advance '*') cs
  | .between, p, c :: cs =>
    if isBlank c then skipGap .between (p.advance c) cs else .ok (p, c :: cs)
  | .between, p, [] => .ok (p, [])
  | .lineComment, p, c :: cs =>
    skipGap (if c = '\n' then .between else .lineComment) (p.advance c) cs
  | .lineComment, p, [] => .ok (p, [])
  | .blockComment opened star, p, c :: cs =>
    if c = '/' ∧ star then skipGap .between (p.advance c) cs
    else skipGap (.blockComment opened (c = '*')) (p.advance c) cs
  | .blockComment opened _, p, [] => .error (.ofCause .unterminatedComment ⟨opened, p⟩)

theorem skipGap_length_le {g : GapState} {p q : Position} {cs ds : List Char}
    (h : skipGap g p cs = .ok (q, ds)) : ds.length ≤ cs.length := by
  fun_induction skipGap g p cs with
  | case1 _ _ ih | case2 _ _ ih | case3 _ _ _ _ _ _ ih =>
    have := ih h
    simp only [List.length_cons]
    omega
  | case4 =>
    cases h
    simp
  | case5 | case7 =>
    cases h
    simp
  | case6 _ _ _ ih =>
    have := ih h
    simp only [List.length_cons]
    omega
  | case8 _ _ _ _ _ _ ih | case9 _ _ _ _ _ _ ih =>
    have := ih h
    simp only [List.length_cons]
    omega
  | case10 => cases h

/-- What a scanner took from the front of a text: its kind, the place after it, and the rest, which
is shorter than a bound. -/
structure Scanned (bound : Nat) where
  kind : TokenKind
  finish : Position
  rest : List Char
  shorter : rest.length < bound

/-- Splits off the longest run of characters of a class. -/
def takeRun (p : Char → Bool) (cs : List Char) : List Char × List Char :=
  (cs.takeWhile p, cs.dropWhile p)

theorem takeRun_rest_le (p : Char → Bool) (cs : List Char) :
    (takeRun p cs).2.length ≤ cs.length :=
  (List.dropWhile_sublist p).length_le

/-- A name or a reserved word. -/
def scanWord (p : Position) (c : Char) (cs : List Char) : Scanned (cs.length + 1) :=
  let run := takeRun isNamePart cs
  ⟨.ofWord (String.ofList (c :: run.1)), p.after (c :: run.1), run.2,
    Nat.lt_succ_of_le (takeRun_rest_le isNamePart cs)⟩

/-- Splits off what goes on a number behind its first digit. A point belongs to it only where a digit
follows. -/
def takeNumber (cs : List Char) : List Char × List Char :=
  let whole := takeRun Char.isDigit cs
  match whole.2 with
  | '.' :: d :: more =>
    if d.isDigit then
      let fraction := takeRun Char.isDigit more
      (whole.1 ++ '.' :: d :: fraction.1, fraction.2)
    else whole
  | _ => whole

theorem takeNumber_rest_le (cs : List Char) : (takeNumber cs).2.length ≤ cs.length := by
  have hwhole := takeRun_rest_le Char.isDigit cs
  unfold takeNumber
  dsimp only
  split
  · rename_i d more h
    have hfraction := takeRun_rest_le Char.isDigit more
    rw [h, List.length_cons, List.length_cons] at hwhole
    split
    · dsimp only
      omega
    · rw [h, List.length_cons, List.length_cons]
      exact hwhole
  · exact hwhole

/-- A number. -/
def scanNumber (p : Position) (c : Char) (cs : List Char) :
    Except Problem (Scanned (cs.length + 1)) :=
  let run := takeNumber cs
  match Binary64.ofChars? (c :: run.1) with
  | some value =>
    .ok ⟨.number value, p.after (c :: run.1), run.2, Nat.lt_succ_of_le (takeNumber_rest_le cs)⟩
  | none =>
    .error (.ofCause (.invalidNumber (String.ofList (c :: run.1))) ⟨p, p.after (c :: run.1)⟩)

/-- The inside of a string and its closing quote: what it stands for, the place after it and the
rest. A bare newline leaves the string open, an escaped one belongs to it. -/
def scanStringTail (start : Position) (quote : Char) :
    Position → List Char → Except Problem (List Char × Position × List Char)
  | p, [] => .error (.ofCause .unterminatedString ⟨start, p⟩)
  | p, c :: cs =>
    if c = quote then .ok ([], p.advance c, cs)
    else if c = '\n' then .error (.ofCause .unterminatedString ⟨start, p.advance c⟩)
    else if c = '\\' then
      match cs with
      | [] => .error (.ofCause .unterminatedString ⟨start, p.advance c⟩)
      | e :: ds =>
        match scanStringTail start quote ((p.advance c).advance e) ds with
        | .ok (value, q, rest) => .ok (unescaped e :: value, q, rest)
        | .error problem => .error problem
    else
      match scanStringTail start quote (p.advance c) cs with
      | .ok (value, q, rest) => .ok (c :: value, q, rest)
      | .error problem => .error problem

theorem scanStringTail_length_lt {start p q : Position} {quote : Char}
    {cs value rest : List Char} (h : scanStringTail start quote p cs = .ok (value, q, rest)) :
    rest.length < cs.length := by
  fun_induction scanStringTail start quote p cs generalizing value with
  | case1 | case3 | case4 | case6 | case8 => cases h
  | case2 =>
    cases h
    simp
  | case5 _ _ _ _ _ _ _ _ heq ih =>
    cases h
    have := ih heq
    simp only [List.length_cons]
    omega
  | case7 _ _ _ _ _ _ _ _ _ heq ih =>
    cases h
    have := ih heq
    simp only [List.length_cons]
    omega

/-- A string. -/
def scanString (p : Position) (quote : Char) (cs : List Char) :
    Except Problem (Scanned (cs.length + 1)) :=
  match h : scanStringTail p quote (p.advance quote) cs with
  | .ok (value, q, rest) =>
    .ok ⟨.text (String.ofList value), q, rest, by
      have := scanStringTail_length_lt h
      omega⟩
  | .error problem => .error problem

/-- The mark in front of a text, the longest that fits, and how many characters follow its
first. -/
def scanMark? : Char → List Char → Option (Mark × Nat)
  | '(', _ => some (.openParen, 0)
  | ')', _ => some (.closeParen, 0)
  | '\x7b', _ => some (.openBrace, 0)
  | '\x7d', _ => some (.closeBrace, 0)
  | '[', _ => some (.openBracket, 0)
  | ']', _ => some (.closeBracket, 0)
  | ';', _ => some (.semicolon, 0)
  | ',', _ => some (.comma, 0)
  | '.', _ => some (.dot, 0)
  | '?', _ => some (.question, 0)
  | ':', _ => some (.colon, 0)
  | '=', '=' :: '=' :: _ => some (.strictEqual, 2)
  | '=', '=' :: _ => some (.equal, 1)
  | '=', _ => some (.assign, 0)
  | '!', '=' :: '=' :: _ => some (.strictNotEqual, 2)
  | '!', '=' :: _ => some (.notEqual, 1)
  | '!', _ => some (.not_, 0)
  | '<', '=' :: _ => some (.lessEqual, 1)
  | '<', _ => some (.less, 0)
  | '>', '=' :: _ => some (.greaterEqual, 1)
  | '>', _ => some (.greater, 0)
  | '+', '+' :: _ => some (.increment, 1)
  | '+', '=' :: _ => some (.addAssign, 1)
  | '+', _ => some (.add, 0)
  | '-', '-' :: _ => some (.decrement, 1)
  | '-', '=' :: _ => some (.subtractAssign, 1)
  | '-', _ => some (.subtract, 0)
  | '*', '=' :: _ => some (.multiplyAssign, 1)
  | '*', _ => some (.multiply, 0)
  | '/', '=' :: _ => some (.divideAssign, 1)
  | '/', _ => some (.divide, 0)
  | '%', '=' :: _ => some (.modulusAssign, 1)
  | '%', _ => some (.modulus, 0)
  | '&', '&' :: _ => some (.and_, 1)
  | '|', '|' :: _ => some (.or_, 1)
  | _, _ => none

/-- Why no token begins with a character. -/
def strayCharacter (c : Char) : Cause :=
  if c = '&' then .bitwiseAnd
  else if c = '|' then .bitwiseOr
  else .unexpectedCharacter c

/-- The token in front of a text that does not begin with a gap. -/
def scanToken (p : Position) (c : Char) (cs : List Char) :
    Except Problem (Scanned (cs.length + 1)) :=
  if isNameStart c then .ok (scanWord p c cs)
  else if c.isDigit then scanNumber p c cs
  else if c = '"' ∨ c = '\x27' then scanString p c cs
  else
    match scanMark? c cs with
    | some (mark, more) =>
      .ok ⟨.mark mark, p.after (c :: cs.take more), cs.drop more, by
        rw [List.length_drop]
        omega⟩
    | none => .error (.ofCause (strayCharacter c) ⟨p, p.advance c⟩)

/-- The tokens from a place on. -/
def scanTokens (p : Position) (cs : List Char) : Except Problem TokenList :=
  match h : skipGap .between p cs with
  | .error problem => .error problem
  | .ok (q, []) => .ok ⟨[], q⟩
  | .ok (q, c :: ds) =>
    have _shorter : (c :: ds).length ≤ cs.length := skipGap_length_le h
    match scanToken q c ds with
    | .error problem => .error problem
    | .ok scanned =>
      match scanTokens scanned.finish scanned.rest with
      | .error problem => .error problem
      | .ok list => .ok ⟨⟨scanned.kind, q, scanned.finish⟩ :: list.tokens, list.finish⟩
termination_by cs.length
decreasing_by
  have := scanned.shorter
  simp only [List.length_cons] at *
  omega

/-- The tokens of a text. -/
def tokenize (text : String) : Except Problem TokenList :=
  scanTokens .start text.toList

end Hoist
