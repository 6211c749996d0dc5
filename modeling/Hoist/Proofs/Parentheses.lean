import Hoist.Proofs.Pieces
import Hoist.Proofs.Segmenting

namespace Hoist

/-- How many parentheses are opened among tokens, but for those that are closed at once. The flag
tells whether one was opened right before. -/
def openings (opened : Bool) : List TokenKind → Nat
  | [] => opened.toNat
  | k :: ks =>
    if k = .mark .closeParen then openings false ks
    else opened.toNat + openings (k = .mark .openParen) ks

section Openings

variable {opened : Bool} {k : TokenKind} {ks ls : List TokenKind}

@[simp] theorem openings_nil : openings opened [] = opened.toNat := rfl

@[simp] theorem openings_close :
    openings opened (.mark .closeParen :: ks) = openings false ks := rfl

@[simp] theorem openings_open :
    openings opened (.mark .openParen :: ks) = opened.toNat + openings true ks := rfl

theorem openings_plain (ho : k ≠ .mark .openParen) (hc : k ≠ .mark .closeParen) :
    openings opened (k :: ks) = opened.toNat + openings false ks := by
  rw [openings, if_neg hc, decide_eq_false ho]

theorem openings_false_cons (ho : k ≠ .mark .openParen) (ks : List TokenKind) :
    openings false (k :: ks) = openings false ks := by
  rw [openings, decide_eq_false ho, Bool.toNat_false, Nat.zero_add, ite_self]

/-- A parenthesis that was opened counts where it is not closed at once. -/
theorem openings_true (h : ks.head? ≠ some (.mark .closeParen)) :
    openings true ks = openings false ks + 1 := by
  cases ks with
  | nil => rfl
  | cons k ks =>
    have hk : k ≠ .mark .closeParen := fun hk => h (congrArg some hk)
    rw [openings, openings, if_neg hk, if_neg hk, Bool.toNat_true, Bool.toNat_false]
    omega

theorem openings_false_le : openings false ks ≤ openings opened ks := by
  cases opened with
  | false => exact Nat.le_refl _
  | true =>
    by_cases h : ks.head? = some (.mark .closeParen)
    · cases ks with
      | nil => cases h
      | cons k ks =>
        obtain rfl := Option.some.inj h
        exact Nat.le_refl _
    · rw [openings_true h]
      omega

theorem openings_true_le : openings true ks ≤ openings false ks + 1 := by
  by_cases h : ks.head? = some (.mark .closeParen)
  · cases ks with
    | nil => cases h
    | cons k ks =>
      obtain rfl := Option.some.inj h
      exact Nat.le_succ _
  · exact Nat.le_of_eq (openings_true h)

/-- No more parentheses are opened in a row of two texts than in both of them. -/
theorem openings_append_le : openings opened (ks ++ ls) ≤ openings opened ks + openings false ls := by
  induction ks generalizing opened with
  | nil =>
    rw [List.nil_append, openings_nil]
    cases opened with
    | false => exact Nat.le_add_left _ _
    | true =>
      rw [Bool.toNat_true, Nat.add_comm]
      exact openings_true_le
  | cons k ks ih =>
    rw [List.cons_append, openings, openings]
    split
    · exact ih
    · have hrest : openings (k = .mark .openParen) (ks ++ ls) ≤
          openings (k = .mark .openParen) ks + openings false ls := ih
      omega

/-- The tokens in front do not matter to how many parentheses more are opened. -/
theorem openings_append_congr {ls' : List TokenKind} {n : Nat}
    (h : ∀ opened, openings opened ls = openings opened ls' + n) :
    openings opened (ks ++ ls) = openings opened (ks ++ ls') + n := by
  induction ks generalizing opened with
  | nil => exact h opened
  | cons k ks ih =>
    rw [List.cons_append, List.cons_append, openings, openings]
    split
    · exact ih
    · rw [ih, Nat.add_assoc]

end Openings

/-- Every parenthesis among tokens is opened and closed among them. -/
inductive Matched : List TokenKind → Prop
  | nil : Matched []
  | token {k : TokenKind} {ks : List TokenKind} (ho : k ≠ .mark .openParen)
    (hc : k ≠ .mark .closeParen) (h : Matched ks) : Matched (k :: ks)
  | pair {ks ls : List TokenKind} (h : Matched ks) (h' : Matched ls) :
    Matched (.mark .openParen :: ks ++ .mark .closeParen :: ls)

namespace Matched

variable {ks : List TokenKind}

theorem head_ne (h : Matched ks) : ks.head? ≠ some (.mark .closeParen) := by
  cases h with
  | nil => simp
  | token ho hc h => simpa using hc
  | pair h h' => simp

/-- Behind matched parentheses others are opened as behind any other token. -/
theorem openings_append (h : Matched ks) (hne : ks ≠ []) (opened : Bool) : ∃ n, ∀ ls : List TokenKind,
    openings opened (ks ++ ls) = n + openings false ls := by
  suffices hall : ∀ opened, ∃ n, ∀ ls : List TokenKind,
      openings opened (ks ++ ls) = n + openings (opened && ks.isEmpty) ls by
    obtain ⟨n, hn⟩ := hall opened
    exact ⟨n, fun ls => by rw [hn, List.isEmpty_eq_false_iff.mpr hne, Bool.and_false]⟩
  clear hne opened
  induction h with
  | nil => exact fun opened => ⟨0, fun ls => by simp⟩
  | token ho hc h ih =>
    intro opened
    obtain ⟨n, hn⟩ := ih false
    refine ⟨opened.toNat + n, fun ls => ?_⟩
    rw [List.cons_append, openings_plain ho hc, hn]
    simp [Nat.add_assoc]
  | @pair ks ls h h' ih ih' =>
    intro opened
    obtain ⟨m, hm⟩ := ih true
    obtain ⟨n, hn⟩ := ih' false
    refine ⟨opened.toNat + (m + n), fun rest => ?_⟩
    rw [List.append_assoc, List.cons_append, List.cons_append, openings_open, hm, openings_close, hn]
    simp [Nat.add_assoc]

/-- Without the parentheses around something one parenthesis less is opened. -/
theorem openings_parenthesized {before behind : List TokenKind} (h : Matched ks) (hne : ks ≠ []) :
    openings false (before ++ .mark .openParen :: ks ++ .mark .closeParen :: behind) =
      openings false (before ++ ks ++ behind) + 1 := by
  rw [List.append_assoc, List.append_assoc]
  refine openings_append_congr fun opened => ?_
  have hhead : ∀ rest : List TokenKind, (ks ++ rest).head? ≠ some (.mark .closeParen) := by
    intro rest
    rw [List.head?_append_of_ne_nil _ hne]
    exact h.head_ne
  obtain ⟨n, hn⟩ := h.openings_append hne false
  have hopened : openings opened (ks ++ behind) = opened.toNat + openings false (ks ++ behind) := by
    cases opened with
    | false => simp
    | true => rw [openings_true (hhead behind), Bool.toNat_true, Nat.add_comm]
  rw [List.cons_append, openings_open, openings_true (hhead _), hn, openings_close, hopened, hn]
  omega

end Matched

/-- What a character of a text is in the middle of. In code and comments it counts whether a
parenthesis was opened right before. -/
inductive TextState
  | code (opened : Bool)
  | quoted (quote : Char)
  | escaped (quote : Char)
  | lineComment (opened : Bool)
  | blockComment (opened star : Bool)

/-- How many parentheses are opened in a text, read character by character, but for those that are
closed at once. -/
def textOpenings : TextState → List Char → Nat
  | .code opened, '/' :: '/' :: cs => textOpenings (.lineComment opened) cs
  | .code opened, '/' :: '*' :: cs => textOpenings (.blockComment opened false) cs
  | .code opened, c :: cs =>
    if isBlank c then textOpenings (.code opened) cs
    else if c = ')' then textOpenings (.code false) cs
    else opened.toNat +
      textOpenings (if isQuote c then .quoted c else .code (c = '(')) cs
  | .code opened, [] => opened.toNat
  | .quoted quote, c :: cs =>
    textOpenings (if c = quote then .code false else if c = '\\' then .escaped quote
      else .quoted quote) cs
  | .quoted _, [] => 0
  | .escaped quote, _ :: cs => textOpenings (.quoted quote) cs
  | .escaped _, [] => 0
  | .lineComment opened, c :: cs =>
    textOpenings (if c = '\n' then .code opened else .lineComment opened) cs
  | .lineComment opened, [] => opened.toNat
  | .blockComment opened star, c :: cs =>
    textOpenings (if c = '/' ∧ star then .code opened else .blockComment opened (c = '*')) cs
  | .blockComment _ _, [] => 0

/-- Whether a text does not begin with a comment. -/
def beginsCode : List Char → Bool
  | '/' :: c :: _ => c ≠ '/' && c ≠ '*'
  | _ => true

/-- Whether a character begins no parenthesis, no string and no comment, and is no blank. -/
def isOrdinary (c : Char) : Bool :=
  !isBlank c && !isQuote c && c ≠ '(' && c ≠ ')' && c ≠ '/'

section TextOpenings

variable {opened : Bool} {c : Char} {cs rest : List Char}

theorem textOpenings_code (h : beginsCode (c :: cs) = true) :
    textOpenings (.code opened) (c :: cs) =
      if isBlank c then textOpenings (.code opened) cs
      else if c = ')' then textOpenings (.code false) cs
      else opened.toNat +
        textOpenings (if isQuote c then .quoted c else .code (c = '(')) cs := by
  rw [textOpenings]
  · rintro ds rfl rfl
    cases h
  · rintro ds rfl rfl
    cases h

theorem textOpenings_blank (h : isBlank c = true) :
    textOpenings (.code opened) (c :: cs) = textOpenings (.code opened) cs := by
  have hslash : c ≠ '/' := fun hc => absurd h (by rw [hc, isBlank_slash]; decide)
  rw [textOpenings_code, if_pos h]
  unfold beginsCode
  split
  · rename_i heq
    exact absurd (List.cons.inj heq).1 hslash
  · rfl

theorem textOpenings_ordinary (h : isOrdinary c = true) :
    textOpenings (.code opened) (c :: cs) = opened.toNat + textOpenings (.code false) cs := by
  simp only [isOrdinary, Bool.and_eq_true, Bool.not_eq_true', decide_eq_true_eq] at h
  obtain ⟨⟨⟨⟨hblank, hquote⟩, hopen⟩, hclose⟩, hslash⟩ := h
  rw [textOpenings_code, hblank, if_neg (by simp), if_neg hclose, hquote, decide_eq_false hopen]
  · rfl
  · unfold beginsCode
    split
    · rename_i heq
      exact absurd (List.cons.inj heq).1 hslash
    · rfl

theorem textOpenings_run (h : ∀ d ∈ c :: cs, isOrdinary d = true) :
    textOpenings (.code opened) (c :: cs ++ rest) =
      opened.toNat + textOpenings (.code false) rest := by
  induction cs generalizing c opened with
  | nil => exact textOpenings_ordinary (h c List.mem_cons_self)
  | cons d cs ih =>
    obtain ⟨hc, hcs⟩ := List.forall_mem_cons.mp h
    rw [List.cons_append, textOpenings_ordinary hc, ih hcs, Bool.toNat_false, Nat.zero_add]

/-- A string opens no parentheses. -/
theorem textOpenings_quoted {quote : Char} {body value : List Char} (h : Quoted quote body value)
    (hq : isQuote quote = true) :
    textOpenings (.quoted quote) (body ++ quote :: rest) = textOpenings (.code false) rest := by
  have hslash : quote ≠ '\\' := by
    rintro rfl
    revert hq
    decide
  induction h with
  | nil => rw [List.nil_append, textOpenings, if_pos rfl]
  | plain hquote hn hs h ih => rw [List.cons_append, textOpenings, if_neg hquote, if_neg hs, ih]
  | escaped h ih =>
    rw [List.cons_append, List.cons_append, textOpenings, if_neg hslash.symm, if_pos rfl,
      textOpenings, ih]

theorem isOrdinary_of_isNamePart (h : isNamePart c = true) : isOrdinary c = true := by
  have hblank : isBlank c = false := by
    cases hb : isBlank c with
    | false => rfl
    | true => rw [isNamePart_of_isBlank hb] at h; cases h
  have hne : ∀ d, isNamePart d = false → c ≠ d := by
    rintro d hd rfl
    rw [hd] at h
    cases h
  simp [isOrdinary, isQuote, hblank, hne '(' (by decide), hne ')' (by decide), hne '/' (by decide),
    hne '"' (by decide), hne '\x27' (by decide)]

theorem isOrdinary_of_isDigit (h : c.isDigit = true) : isOrdinary c = true :=
  isOrdinary_of_isNamePart (isNamePart_of_isDigit h)

/-- How a token goes on with the count of parentheses. -/
def TokenKind.counted (k : TokenKind) (opened : Bool) (rest : List Char) : Nat :=
  if k = .mark .closeParen then textOpenings (.code false) rest
  else opened.toNat + textOpenings (.code (k = .mark .openParen)) rest

theorem counted_plain {k : TokenKind} (ho : k ≠ .mark .openParen) (hc : k ≠ .mark .closeParen) :
    k.counted opened rest = opened.toNat + textOpenings (.code false) rest := by
  rw [TokenKind.counted, if_neg hc, decide_eq_false ho]

/-- The marks that are no parentheses and have no slash are ordinary characters. -/
theorem Mark.isOrdinary_chars {m : Mark}
    (h : m ∉ [.openParen, .closeParen, .divide, .divideAssign]) :
    ∀ d ∈ m.chars.1 :: m.chars.2, isOrdinary d = true := by
  refine List.all_eq_true.mp ?_
  revert h
  cases m <;> decide

theorem textOpenings_mark (m : Mark) (h : m = .divide → beginsCode ('/' :: rest) = true) :
    textOpenings (.code opened) (m.spelling.toList ++ rest) =
      (TokenKind.mark m).counted opened rest := by
  rw [m.spelling_chars]
  by_cases hm : m ∈ [.openParen, .closeParen, .divide, .divideAssign]
  · simp only [List.mem_cons, List.not_mem_nil, or_false] at hm
    rcases hm with rfl | rfl | rfl | rfl
    · exact textOpenings_code rfl
    · exact textOpenings_code rfl
    · exact textOpenings_code (h rfl)
    · have hequal : textOpenings (.code false) ('=' :: rest) = textOpenings (.code false) rest :=
        (textOpenings_ordinary (by decide)).trans (Nat.zero_add _)
      exact (textOpenings_code rfl).trans (congrArg (opened.toNat + ·) hequal)
  · rw [textOpenings_run (Mark.isOrdinary_chars hm), counted_plain]
    · rintro ⟨⟩
      exact hm (by simp)
    · rintro ⟨⟩
      exact hm (by simp)

/-- A token in front of a text opens at most one parenthesis. -/
theorem Lexeme.textOpenings {k : TokenKind} (h : Lexeme cs k)
    (hslash : k = .mark .divide → beginsCode ('/' :: rest) = true) :
    textOpenings (.code opened) (cs ++ rest) = k.counted opened rest := by
  cases h with
  | @word c cs hc hcs =>
    have hall : ∀ d ∈ c :: cs, isOrdinary d = true := List.forall_mem_cons.mpr
      ⟨isOrdinary_of_isNamePart (isNamePart_of_isNameStart hc),
        fun d hd => isOrdinary_of_isNamePart (hcs d hd)⟩
    rw [textOpenings_run hall,
      counted_plain (TokenKind.ofWord_ne_mark _ _) (TokenKind.ofWord_ne_mark _ _)]
  | whole h =>
    rw [textOpenings_run fun d hd => isOrdinary_of_isDigit (h d hd), counted_plain (by simp) (by simp)]
  | @fraction c d cs ds h hd =>
    have hall : ∀ e ∈ c :: (cs ++ '.' :: d :: ds), isOrdinary e = true := by
      intro e he
      rw [← List.cons_append] at he
      rcases List.mem_append.mp he with he | he
      · exact isOrdinary_of_isDigit (h e he)
      · rcases List.mem_cons.mp he with rfl | he
        · decide
        · exact isOrdinary_of_isDigit (hd e he)
    rw [List.cons_append, textOpenings_run hall, counted_plain (by simp) (by simp)]
  | @text quote body value hq h =>
    have hcode : beginsCode (quote :: (body ++ quote :: rest)) = true := by
      unfold beginsCode
      split
      · rename_i heq
        rw [(List.cons.inj heq).1] at hq
        cases hq
      · rfl
    have hblank : isBlank quote = false := by
      cases hb : isBlank quote with
      | false => rfl
      | true =>
        simp only [isQuote, decide_eq_true_eq] at hq
        rcases hq with rfl | rfl <;> revert hb <;> decide
    have hclose : quote ≠ ')' := by
      rintro rfl
      cases hq
    rw [List.append_assoc, List.cons_append, List.singleton_append, textOpenings_code hcode, hblank,
      if_neg (by simp), if_neg hclose, hq, if_pos rfl, textOpenings_quoted h hq,
      counted_plain (by simp) (by simp)]
  | mark m => exact textOpenings_mark m fun hm => hslash (by rw [hm])

end TextOpenings

/-- What a gap is in the middle of, in terms of counting. -/
def GapState.counting (opened : Bool) : GapState → TextState
  | .between => .code opened
  | .lineComment => .lineComment opened
  | .blockComment _ star => .blockComment opened star

/-- Gaps open no parentheses. -/
theorem skipGap_textOpenings {g : GapState} {p q : Position} {cs ds : List Char}
    (h : skipGap g p cs = .ok (q, ds)) (opened : Bool) :
    textOpenings (g.counting opened) cs = textOpenings (.code opened) ds ∧ beginsCode ds = true := by
  fun_induction skipGap g p cs with
  | case1 p cs ih => exact ih h
  | case2 p cs ih => exact ih h
  | case3 p c cs _ _ hb ih => exact ⟨(textOpenings_blank hb).trans (ih h).1, (ih h).2⟩
  | case4 p c cs hline hblock hb =>
    cases h
    refine ⟨rfl, ?_⟩
    unfold beginsCode
    split
    · rename_i d ds heq
      obtain ⟨rfl, rfl⟩ := List.cons.inj heq
      have hd : d ≠ '/' ∧ d ≠ '*' :=
        ⟨fun hd => hline ds rfl (by rw [hd]), fun hd => hblock ds rfl (by rw [hd])⟩
      simpa using hd
    · rfl
  | case5 => cases h; exact ⟨rfl, rfl⟩
  | case6 p c cs ih =>
    refine ⟨?_, (ih h).2⟩
    rw [← (ih h).1]
    change textOpenings (.lineComment opened) (c :: cs) = _
    rw [textOpenings]
    split <;> rfl
  | case7 => cases h; exact ⟨rfl, rfl⟩
  | case8 _ star p c cs hc ih =>
    refine ⟨?_, (ih h).2⟩
    rw [← (ih h).1]
    change textOpenings (.blockComment opened star) (c :: cs) = _
    rw [textOpenings, if_pos hc]
    rfl
  | case9 _ star p c cs hc ih =>
    refine ⟨?_, (ih h).2⟩
    rw [← (ih h).1]
    change textOpenings (.blockComment opened star) (c :: cs) = _
    rw [textOpenings, if_neg hc]
    rfl
  | case10 => cases h

/-- The tokens of a text open the parentheses that its characters do. -/
theorem scanTokens_openings {p : Position} {cs : List Char} {list : TokenList}
    (h : scanTokens p cs = .ok list) (opened : Bool) :
    openings opened (list.tokens.map Token.kind) = textOpenings (.code opened) cs := by
  fun_induction scanTokens p cs generalizing opened list with
  | case1 | case3 | case4 => cases h
  | case2 p cs q hgap =>
    cases h
    exact (skipGap_textOpenings hgap opened).1.symm
  | case5 p cs q c ds hgap _ scanned hscan rest hrest ih =>
    cases h
    obtain ⟨hcs, hcode⟩ := skipGap_textOpenings hgap opened
    obtain ⟨lexeme, hds, -, hl⟩ := scanToken_splits hscan
    have hslash : scanned.kind = .mark .divide → beginsCode ('/' :: scanned.rest) = true := by
      intro hk
      rw [hk] at hl
      generalize hm : TokenKind.mark .divide = k at hl
      cases hl with
      | mark m =>
        obtain rfl := TokenKind.mark.inj hm
        rw [hds] at hcode
        exact hcode
      | word => exact absurd hm.symm (TokenKind.ofWord_ne_mark _ _)
      | _ => cases hm
    rw [List.map_cons, openings, ih hrest, ih hrest]
    exact ((hcs.trans (by rw [hds])).trans (hl.textOpenings hslash)).symm

theorem tokenize_openings {text : String} {list : TokenList} (h : tokenize text = .ok list) :
    openings false (list.tokens.map Token.kind) = textOpenings (.code false) text.toList :=
  scanTokens_openings h false

/-- Pieces that can be read, in which a slash is followed by a space. -/
def Calm : List Piece → Prop
  | [] => True
  | .token k :: ps => k.isLegible = true ∧ (k = .mark .divide → ps.head? = some .space) ∧ Calm ps
  | .space :: ps => Calm ps

section Calm

variable {k : TokenKind} {ps qs : List Piece}

@[simp] theorem calm_nil : Calm [] := trivial

@[simp] theorem calm_token : Calm (.token k :: ps) ↔
    k.isLegible = true ∧ (k = .mark .divide → ps.head? = some .space) ∧ Calm ps := Iff.rfl

@[simp] theorem calm_space : Calm (.space :: ps) ↔ Calm ps := Iff.rfl

theorem calm_append (h : Calm ps) (h' : Calm qs) : Calm (ps ++ qs) := by
  induction ps with
  | nil => exact h'
  | cons p ps ih =>
    cases p with
    | token k =>
      obtain ⟨hk, hslash, hps⟩ := h
      refine ⟨hk, fun hd => ?_, ih hps⟩
      cases ps with
      | nil => cases hslash hd
      | cons p ps => exact hslash hd
    | space => exact ih h

theorem Calm.behind (h : Calm (ps ++ qs)) : Calm qs := by
  induction ps with
  | nil => exact h
  | cons p ps ih =>
    cases p with
    | token => exact ih h.2.2
    | space => exact ih h

/-- What stands in front of a token ends in no slash. -/
theorem Calm.front (h : Calm (ps ++ .token k :: qs)) : Calm ps := by
  induction ps with
  | nil => trivial
  | cons p ps ih =>
    cases p with
    | token l =>
      obtain ⟨hl, hslash, hps⟩ := h
      refine ⟨hl, fun hd => ?_, ih hps⟩
      have hspace := hslash hd
      cases ps with
      | nil => cases hspace
      | cons p ps => exact hspace
    | space => exact ih h

end Calm

theorem lexeme_word {word : String} (h : isNameLike word = true) :
    Lexeme word.toList (.ofWord word) := by
  have hword : word = String.ofList word.toList := String.ofList_toList.symm
  rw [isNameLike] at h
  cases hl : word.toList with
  | nil => rw [hl] at h; cases h
  | cons c cs =>
    rw [hl, Bool.and_eq_true, List.all_eq_true] at h
    rw [hword, hl]
    exact .word h.1 h.2

theorem quoted_flatMap (cs : List Char) : Quoted '"' (cs.flatMap quotedChar) cs := by
  induction cs with
  | nil => exact .nil
  | cons c cs ih =>
    rw [List.flatMap_cons]
    rcases quotedChar_cases c with ⟨hc, hquote, hslash, hline⟩ | ⟨e, hc, rfl⟩
    · rw [hc]
      exact .plain hquote hline hslash ih
    · rw [hc]
      exact .escaped ih

/-- A legible token is spelled as one token, which is the same mark where it is a mark. -/
theorem lexeme_spelling {k : TokenKind} (h : k.isLegible = true) :
    ∃ l, Lexeme k.spelling.toList l ∧ ∀ m, l = .mark m ↔ k = .mark m := by
  cases k with
  | symbol x =>
    have hx : isNameLike x = true := (Bool.and_eq_true_iff.mp h).1
    exact ⟨_, lexeme_word hx, by simp [TokenKind.ofWord_ne_mark]⟩
  | number value =>
    cases value with
    | nan => cases h
    | infinite negative =>
      obtain rfl : negative = false := by simpa [TokenKind.isLegible, Binary64.isUnsigned] using h
      have hinf : isNameLike "inf" = true := by decide
      exact ⟨_, lexeme_word hinf, by simp [TokenKind.ofWord_ne_mark]⟩
    | finite negative rank =>
      obtain rfl : negative = false := by simpa [TokenKind.isLegible, Binary64.isUnsigned] using h
      have htext : (TokenKind.number (.finite false rank)).spelling.toList =
          placesText (shortestDecimal rank).placed.whole (shortestDecimal rank).placed.fraction := by
        simp [TokenKind.spelling, Binary64.text, signed, PlacedDigits.plain, placesText]
      have hdigits := (shortestDecimal rank).isDigit_placed
      rw [htext]
      exact ⟨_, lexeme_places (PlacedDigits.whole_ne_nil (shortestDecimal rank).placed_ne_nil)
        (PlacedDigits.isDigit_whole hdigits) (PlacedDigits.isDigit_fraction hdigits), by simp⟩
  | text value =>
    have htext : (TokenKind.text value).spelling.toList =
        '"' :: value.toList.flatMap quotedChar ++ ['"'] := by
      simp [TokenKind.spelling, quoted]
    rw [htext]
    exact ⟨_, .text (by decide) (quoted_flatMap value.toList), by simp⟩
  | keyword w => exact ⟨_, lexeme_word (isNameLike_spelling w), by simp [TokenKind.ofWord_ne_mark]⟩
  | mark m => exact ⟨_, .mark m, fun _ => Iff.rfl⟩

/-- Pieces open the parentheses that their tokens open. -/
theorem Calm.textOpenings {ps : List Piece} (h : Calm ps) (opened : Bool) :
    textOpenings (.code opened) (pieceChars ps) = openings opened (pieceTokens ps) := by
  induction ps generalizing opened with
  | nil => rfl
  | cons p ps ih =>
    cases p with
    | space => exact (textOpenings_blank (by decide)).trans (ih h opened)
    | token k =>
      obtain ⟨hk, hslash, hps⟩ := h
      obtain ⟨l, hl, hmark⟩ := lexeme_spelling hk
      have hcode : l = .mark .divide → beginsCode ('/' :: pieceChars ps) = true := by
        intro hd
        have hspace := hslash ((hmark _).mp hd)
        cases ps with
        | nil => cases hspace
        | cons p ps =>
          obtain rfl := Option.some.inj hspace
          rfl
      rw [pieceChars_token, hl.textOpenings hcode, TokenKind.counted, pieceTokens_token, openings]
      simp only [hmark]
      split
      · exact ih hps _
      · rw [ih hps]

end Hoist
