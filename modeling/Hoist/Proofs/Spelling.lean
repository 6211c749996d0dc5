import Hoist.Proofs.Legible
import Hoist.Proofs.NumberSpelling
import Hoist.TokenScan

namespace Hoist

/-- What scanning a text from anywhere gives. -/
def Scans (cs : List Char) (ks : List TokenKind) : Prop :=
  ∀ p : Position, ∃ list, scanTokens p cs = .ok list ∧ list.tokens.map Token.kind = ks

/-- Scanning skips a gap, scans a token and goes on. -/
theorem scanTokens_eq (p : Position) (cs : List Char) :
    scanTokens p cs = (skipGap .between p cs).bind fun
      | (q, []) => .ok ⟨[], q⟩
      | (q, c :: ds) => (scanToken q c ds).bind fun scanned =>
        (scanTokens scanned.finish scanned.rest).bind fun list =>
          .ok ⟨⟨scanned.kind, q, scanned.finish⟩ :: list.tokens, list.finish⟩ := by
  rw [scanTokens]
  split
  · rename_i h
    rw [h]
    rfl
  · rename_i h
    rw [h]
    rfl
  · rename_i q c ds h
    simp only [h, Except.bind]
    cases scanToken q c ds with
    | error => rfl
    | ok scanned => cases hrest : scanTokens scanned.finish scanned.rest <;> simp [hrest]

theorem scans_nil : Scans [] [] := fun p => ⟨⟨[], p⟩, by rw [scanTokens_eq]; rfl, rfl⟩

theorem skipGap_between {c : Char} (hb : isBlank c = false) {cs : List Char}
    (hc : c = '/' → cs.head? ≠ some '/' ∧ cs.head? ≠ some '*') (p : Position) :
    skipGap .between p (c :: cs) = .ok (p, c :: cs) := by
  rw [skipGap]
  · rw [hb]
    rfl
  · rintro ds hc' rfl
    exact (hc hc').1 rfl
  · rintro ds hc' rfl
    exact (hc hc').2 rfl

theorem skipGap_blank {c : Char} (hb : isBlank c = true) (cs : List Char) (p : Position) :
    skipGap .between p (c :: cs) = skipGap .between (p.advance c) cs := by
  have hslash : c ≠ '/' := fun h => absurd hb (by rw [h]; decide)
  rw [skipGap]
  · rw [if_pos hb]
  · exact fun _ h => absurd h hslash
  · exact fun _ h => absurd h hslash

/-- A blank in front of a text does not count. -/
theorem Scans.blank {c : Char} (hb : isBlank c = true) {cs : List Char} {ks : List TokenKind}
    (h : Scans cs ks) : Scans (c :: cs) ks := by
  intro p
  obtain ⟨list, hl, hks⟩ := h (p.advance c)
  refine ⟨list, ?_, hks⟩
  rw [scanTokens_eq] at hl ⊢
  rw [skipGap_blank hb]
  exact hl

/-- A token in front of a text is scanned first. -/
theorem Scans.token {c : Char} {cs rest : List Char} {k : TokenKind} {ks : List TokenKind}
    (hb : isBlank c = false) (hc : c = '/' → cs.head? ≠ some '/' ∧ cs.head? ≠ some '*')
    (hscan : ∀ p, ∃ q h, scanToken p c cs = .ok ⟨k, q, rest, h⟩) (h : Scans rest ks) :
    Scans (c :: cs) (k :: ks) := by
  intro p
  obtain ⟨q, hlt, hq⟩ := hscan p
  obtain ⟨list, hl, hks⟩ := h q
  refine ⟨⟨⟨k, p, q⟩ :: list.tokens, list.finish⟩, ?_, by rw [List.map_cons, hks]⟩
  rw [scanTokens_eq, skipGap_between hb hc]
  simp only [Except.bind, hq, hl]

theorem isNamePart_of_isBlank {c : Char} (h : isBlank c = true) : isNamePart c = false := by
  have hr : c.toNat ∈ List.range' 9 5 ++ [0x20, 0x85, 0xA0, 0x1680] ++ List.range' 0x2000 11 ++
      [0x2028, 0x2029, 0x202F, 0x205F, 0x3000] := by
    simp [isBlank, blankRanges, CharRanges.contains] at h
    simp
    omega
  have hc : c = Char.ofNat c.toNat := by simp
  rw [hc]
  generalize c.toNat = n at hr
  revert n
  decide +kernel

theorem isNamePart_of_isNameStart {c : Char} (h : isNameStart c = true) : isNamePart c = true := by
  simp only [isNameStart, isNamePart, Bool.or_eq_true] at h ⊢
  obtain (h | h) | h := h
  · exact .inl (.inl (.inl h))
  · exact .inl (.inr h)
  · exact .inr h

theorem isNameStart_of_isBlank {c : Char} (h : isBlank c = true) : isNameStart c = false := by
  cases hc : isNameStart c with
  | false => rfl
  | true =>
    have hpart := isNamePart_of_isNameStart hc
    rw [isNamePart_of_isBlank h] at hpart
    cases hpart

theorem exists_digit {c : Char} (h : c.isDigit = true) :
    ∃ n ∈ List.range' 48 10, c = Char.ofNat n := by
  refine ⟨c.toNat, ?_, by simp⟩
  have hc : c.toNat = c.val.toNat := rfl
  simp only [Char.isDigit, ge_iff_le, UInt32.le_iff_toNat_le, Char.reduceVal, UInt32.reduceToNat,
    Bool.and_eq_true, decide_eq_true_eq] at h
  rw [List.mem_range'_1]
  omega

theorem isDigit_only {c : Char} (h : c.isDigit = true) :
    isNameStart c = false ∧ isBlank c = false ∧ c ≠ '/' := by
  obtain ⟨n, hn, rfl⟩ := exists_digit h
  revert n
  decide

/-- Whether a character that comes next makes another mark of a mark, or a comment. -/
def Mark.extendedBy : Mark → Char → Bool
  | .assign, c | .not_, c | .less, c | .greater, c | .multiply, c | .modulus, c | .equal, c
  | .notEqual, c => c = '='
  | .add, c => c = '+' || c = '='
  | .subtract, c => c = '-' || c = '='
  | .divide, c => c = '/' || c = '*' || c = '='
  | _, _ => false

/-- Whether a text goes on with a fraction. -/
def startsFraction : List Char → Bool
  | '.' :: d :: _ => d.isDigit
  | _ => false

/-- Whether a token ends before a text, so that it is scanned as itself there. -/
def TokenKind.endsBefore : TokenKind → List Char → Bool
  | .symbol _, cs | .keyword _, cs => !cs.head?.any isNamePart
  | .number _, cs => !cs.head?.any Char.isDigit && !startsFraction cs
  | .text _, _ => true
  | .mark m, cs => !cs.head?.any m.extendedBy

/-- Whether a token is scanned as itself. -/
def TokenKind.isSpelled : TokenKind → Bool
  | .symbol x => isSymbol x
  | .number (.finite negative _) => !negative
  | .number _ => false
  | _ => true

theorem takeRun_split (f : Char → Bool) (cs : List Char) :
    cs = (takeRun f cs).1 ++ (takeRun f cs).2 ∧ ∀ d ∈ (takeRun f cs).1, f d = true :=
  ⟨List.takeWhile_append_dropWhile.symm, List.all_eq_true.mp List.all_takeWhile⟩

theorem takeRun_append {f : Char → Bool} {cs rest : List Char} (h : ∀ c ∈ cs, f c = true)
    (hr : rest.head?.any f = false) : takeRun f (cs ++ rest) = (cs, rest) := by
  rw [takeRun, List.takeWhile_append_of_pos h, List.dropWhile_append_of_pos h]
  cases rest with
  | nil => simp
  | cons c rest =>
    have hc : f c = false := hr
    rw [List.takeWhile_cons_of_neg (by simp [hc]), List.dropWhile_cons_of_neg (by simp [hc]),
      List.append_nil]

/-- A word is scanned as the reserved word or the name that it is. -/
theorem scans_word {word : String} (hw : isNameLike word = true) {cs : List Char}
    (hr : cs.head?.any isNamePart = false) {ks : List TokenKind} (h : Scans cs ks) :
    Scans (word.toList ++ cs) (.ofWord word :: ks) := by
  have hword : word = String.ofList word.toList := String.ofList_toList.symm
  rw [isNameLike] at hw
  cases hl : word.toList with
  | nil => rw [hl] at hw; cases hw
  | cons c ds =>
    rw [hl] at hw
    rw [Bool.and_eq_true, List.all_eq_true] at hw
    obtain ⟨hstart, hparts⟩ := hw
    rw [hl] at hword
    have hblank : isBlank c = false := by
      cases hb : isBlank c with
      | false => rfl
      | true => rw [isNameStart_of_isBlank hb] at hstart; cases hstart
    have hslash : c ≠ '/' := fun hc => absurd hstart (by rw [hc]; decide)
    rw [List.cons_append]
    refine Scans.token hblank (fun hc => absurd hc hslash) (fun p => ?_) h
    have hrun : takeRun isNamePart (ds ++ cs) = (ds, cs) := takeRun_append hparts hr
    refine ⟨p.after (c :: ds), by simp only [List.length_append]; omega, ?_⟩
    rw [scanToken, if_pos hstart, scanWord]
    simp only [hrun, ← hword]

/-- A number as it is written with digits on both sides of a point, or without one. -/
def placesText (whole fraction : List Char) : List Char :=
  if fraction.isEmpty then whole else whole ++ '.' :: fraction

theorem toLower_of_isDigit {c : Char} (h : c.isDigit = true) : c.toLower = c := by
  have hle : c.val ≤ '9'.val := of_decide_eq_true (Bool.and_eq_true_iff.mp h).2
  exact dif_neg fun hupper => absurd (UInt32.le_trans hupper.1 hle) (by decide)

/-- What begins with a digit is none of the words that a number can be. -/
theorem map_toLower_ne {c : Char} {cs word : List Char} (hc : c.isDigit = true)
    (hw : word.head?.any Char.isDigit = false) : (c :: cs).map Char.toLower ≠ word := by
  rintro rfl
  rw [List.map_cons, toLower_of_isDigit hc, List.head?_cons, Option.any_some, hc] at hw
  cases hw

section Places

variable {whole fraction : List Char}

theorem exists_placesText (c : Char) (cs fraction : List Char) :
    ∃ ds, placesText (c :: cs) fraction = c :: ds := by
  unfold placesText
  split <;> exact ⟨_, rfl⟩

/-- The digits in front of a point and behind it are told apart. -/
theorem takeFraction_places (hwhole : ∀ c ∈ whole, c.isDigit = true)
    (hfraction : ∀ c ∈ fraction, c.isDigit = true) :
    (placesText whole fraction).takeWhile Char.isDigit = whole ∧
      takeFraction ((placesText whole fraction).dropWhile Char.isDigit) = (fraction, []) := by
  cases fraction with
  | nil =>
    have hrun : takeRun Char.isDigit (whole ++ []) = (whole, []) := takeRun_append hwhole rfl
    rw [List.append_nil] at hrun
    have hrest : whole.dropWhile Char.isDigit = [] := congrArg Prod.snd hrun
    exact ⟨congrArg Prod.fst hrun, congrArg takeFraction hrest⟩
  | cons d ds =>
    have hrun : takeRun Char.isDigit (whole ++ '.' :: d :: ds) = (whole, '.' :: d :: ds) :=
      takeRun_append hwhole rfl
    have hrest : (whole ++ '.' :: d :: ds).dropWhile Char.isDigit = '.' :: d :: ds :=
      congrArg Prod.snd hrun
    have hdigits : takeRun Char.isDigit (d :: ds ++ []) = (d :: ds, []) :=
      takeRun_append hfraction rfl
    rw [List.append_nil] at hdigits
    exact ⟨congrArg Prod.fst hrun, (congrArg takeFraction hrest).trans hdigits⟩

/-- Digits, perhaps with a point and more digits behind them, are read as the number that they
write. -/
theorem ofChars?_places (hne : whole ≠ []) (hwhole : ∀ c ∈ whole, c.isDigit = true)
    (hfraction : ∀ c ∈ fraction, c.isDigit = true) :
    Binary64.ofChars? (placesText whole fraction) = some (.ofPlaces whole fraction) := by
  obtain ⟨hdigits, hrest⟩ := takeFraction_places hwhole hfraction
  obtain ⟨c, cs, rfl⟩ := List.exists_cons_of_ne_nil hne
  have hc := hwhole c List.mem_cons_self
  obtain ⟨ds, hds⟩ := exists_placesText c cs fraction
  have hmagnitude : Binary64.ofMagnitude? false (c :: ds) = some (.ofPlaces (c :: cs) fraction) := by
    have hword : ∀ {word : List Char}, word.head?.any Char.isDigit = false →
        (c :: ds).map Char.toLower ≠ word := map_toLower_ne hc
    rw [hds] at hdigits hrest
    unfold Binary64.ofMagnitude?
    dsimp only
    rw [if_neg (hword rfl), if_neg (not_or.mpr ⟨hword rfl, hword rfl⟩), hdigits, hrest,
      if_neg (by simp)]
    rfl
  rw [hds]
  unfold Binary64.ofChars?
  split
  · rename_i hsign
    cases hsign
    cases hc
  · rename_i hsign
    cases hsign
    cases hc
  · exact hmagnitude

/-- What is taken as a number is scanned as the number that it writes: reading it does not fail. -/
theorem scanNumber_eq (p : Position) {c : Char} {cs ds rest : List Char}
    (hrun : takeNumber cs = (ds, rest)) (htext : c :: ds = placesText whole fraction)
    (hne : whole ≠ []) (hwhole : ∀ c ∈ whole, c.isDigit = true)
    (hfraction : ∀ c ∈ fraction, c.isDigit = true) :
    ∃ h, scanNumber p c cs = .ok ⟨.number (.ofPlaces whole fraction),
      p.after (placesText whole fraction), rest, h⟩ := by
  have hlt : rest.length < cs.length + 1 := by
    have hle := takeNumber_rest_le cs
    rw [hrun] at hle
    exact Nat.lt_succ_of_le hle
  refine ⟨hlt, ?_⟩
  unfold scanNumber
  simp only [hrun, htext, ofChars?_places hne hwhole hfraction]

end Places

/-- What is taken as a number are digits, perhaps with a point and more digits behind them. -/
theorem takeNumber_places {c : Char} (hc : c.isDigit = true) (cs : List Char) :
    ∃ whole fraction, c :: (takeNumber cs).1 = placesText whole fraction ∧
      cs = (takeNumber cs).1 ++ (takeNumber cs).2 ∧ whole ≠ [] ∧
        (∀ d ∈ whole, d.isDigit = true) ∧ ∀ d ∈ fraction, d.isDigit = true := by
  obtain ⟨hcs, hrun⟩ := takeRun_split Char.isDigit cs
  have hwhole : ∀ d ∈ c :: (takeRun Char.isDigit cs).1, d.isDigit = true :=
    List.forall_mem_cons.mpr ⟨hc, hrun⟩
  unfold takeNumber
  dsimp only
  split
  · rename_i d more hmore
    split
    · rename_i hd
      obtain ⟨hcs', hrun'⟩ := takeRun_split Char.isDigit more
      refine ⟨_, d :: (takeRun Char.isDigit more).1, rfl, ?_, List.cons_ne_nil _ _, hwhole,
        List.forall_mem_cons.mpr ⟨hd, hrun'⟩⟩
      rw [List.append_assoc, List.cons_append, List.cons_append, ← hcs', ← hmore]
      exact hcs
    · exact ⟨_, [], rfl, hcs, List.cons_ne_nil _ _, hwhole, List.forall_mem_nil _⟩
  · exact ⟨_, [], rfl, hcs, List.cons_ne_nil _ _, hwhole, List.forall_mem_nil _⟩

/-- What begins with a digit is scanned as a number. -/
theorem scanNumber_places (p : Position) {c : Char} (hc : c.isDigit = true) (cs : List Char) :
    ∃ whole fraction h, scanNumber p c cs = .ok ⟨.number (.ofPlaces whole fraction),
        p.after (placesText whole fraction), (takeNumber cs).2, h⟩ ∧
      c :: cs = placesText whole fraction ++ (takeNumber cs).2 ∧ whole ≠ [] ∧
        (∀ d ∈ whole, d.isDigit = true) ∧ ∀ d ∈ fraction, d.isDigit = true := by
  obtain ⟨whole, fraction, htext, hcs, hne, hwhole, hfraction⟩ := takeNumber_places hc cs
  obtain ⟨hlt, hscan⟩ := scanNumber_eq p rfl htext hne hwhole hfraction
  refine ⟨whole, fraction, hlt, hscan, ?_, hne, hwhole, hfraction⟩
  rw [← htext, List.cons_append, ← hcs]

/-- Digits that no fraction follows are taken by themselves. -/
theorem takeNumber_whole {cs ds rest : List Char} (hrun : takeRun Char.isDigit cs = (ds, rest))
    (hr : startsFraction rest = false) : takeNumber cs = (ds, rest) := by
  unfold takeNumber
  dsimp only
  split
  · rename_i d more hmore
    have hrest : rest = '.' :: d :: more := (congrArg Prod.snd hrun).symm.trans hmore
    rw [hrest] at hr
    rw [if_neg (by simpa [startsFraction] using hr), hrun]
  · exact hrun

/-- Digits, a point and digits are taken together. -/
theorem takeNumber_fraction {d : Char} {cs ds more es rest : List Char}
    (hrun : takeRun Char.isDigit cs = (ds, '.' :: d :: more)) (hd : d.isDigit = true)
    (hmore : takeRun Char.isDigit more = (es, rest)) :
    takeNumber cs = (ds ++ '.' :: d :: es, rest) := by
  unfold takeNumber
  simp only [hrun, if_pos hd, hmore]

/-- Digits, perhaps with a point and more digits behind them, are scanned as the number that they
write. -/
theorem scans_places {whole fraction cs : List Char} (hne : whole ≠ [])
    (hwhole : ∀ c ∈ whole, c.isDigit = true) (hfraction : ∀ c ∈ fraction, c.isDigit = true)
    (hdigit : cs.head?.any Char.isDigit = false) (hpoint : startsFraction cs = false)
    {ks : List TokenKind} (h : Scans cs ks) :
    Scans (placesText whole fraction ++ cs) (.number (.ofPlaces whole fraction) :: ks) := by
  obtain ⟨c, ds, rfl⟩ := List.exists_cons_of_ne_nil hne
  obtain ⟨hc, hds⟩ := List.forall_mem_cons.mp hwhole
  obtain ⟨hstart, hblank, hslash⟩ := isDigit_only hc
  obtain ⟨es, htext, hrun⟩ : ∃ es, placesText (c :: ds) fraction = c :: es ∧
      takeNumber (es ++ cs) = (es, cs) := by
    cases fraction with
    | nil => exact ⟨ds, rfl, takeNumber_whole (takeRun_append hds hdigit) hpoint⟩
    | cons d es =>
      obtain ⟨hd, hes⟩ := List.forall_mem_cons.mp hfraction
      refine ⟨ds ++ '.' :: d :: es, rfl, ?_⟩
      rw [List.append_assoc, List.cons_append, List.cons_append]
      exact takeNumber_fraction (takeRun_append hds rfl) hd (takeRun_append hes hdigit)
  rw [htext, List.cons_append]
  refine Scans.token hblank (fun hc => absurd hc hslash) (fun p => ?_) h
  obtain ⟨hlt, hscan⟩ := scanNumber_eq p hrun htext.symm hne hwhole hfraction
  exact ⟨_, hlt, by rw [scanToken, if_neg (by simp [hstart]), if_pos hc, hscan]⟩

/-- A number is scanned as itself. -/
theorem scans_number (rank : Fin finiteRanks) {cs : List Char}
    (hr : (TokenKind.number (.finite false rank)).endsBefore cs = true) {ks : List TokenKind}
    (h : Scans cs ks) :
    Scans ((shortestDecimal rank).placed.plain ++ cs) (.number (.finite false rank) :: ks) := by
  have hdigits := (shortestDecimal rank).isDigit_placed
  rw [TokenKind.endsBefore, Bool.and_eq_true, Bool.not_eq_true', Bool.not_eq_true'] at hr
  have hscans := scans_places (PlacedDigits.whole_ne_nil (shortestDecimal rank).placed_ne_nil)
    (PlacedDigits.isDigit_whole hdigits) (PlacedDigits.isDigit_fraction hdigits) hr.1 hr.2 h
  rwa [ofPlaces_shortestDecimal] at hscans

/-- A character stands for itself or is escaped. -/
theorem quotedChar_cases (d : Char) :
    (quotedChar d = [d] ∧ d ≠ '"' ∧ d ≠ '\\' ∧ d ≠ '\n') ∨
      ∃ e, quotedChar d = ['\\', e] ∧ unescaped e = d := by
  unfold quotedChar
  split
  · exact .inr ⟨_, rfl, by subst d; decide⟩
  split
  · exact .inr ⟨_, rfl, by subst d; decide⟩
  split
  · exact .inr ⟨_, rfl, by subst d; decide⟩
  split
  · exact .inr ⟨_, rfl, by subst d; decide⟩
  split
  · exact .inr ⟨_, rfl, by subst d; decide⟩
  split
  · exact .inr ⟨_, rfl, by subst d; decide⟩
  · exact .inl ⟨rfl, by assumption, by assumption, by assumption⟩

/-- What stands between quotes is scanned up to the closing quote. -/
theorem scanStringTail_quoted (start : Position) (ds cs : List Char) (p : Position) :
    ∃ q, scanStringTail start '"' p (ds.flatMap quotedChar ++ '"' :: cs) = .ok (ds, q, cs) := by
  induction ds generalizing p with
  | nil =>
    exact ⟨p.advance '"', by rw [List.flatMap_nil, List.nil_append, scanStringTail.eq_def]; rfl⟩
  | cons d ds ih =>
    rw [List.flatMap_cons, List.append_assoc]
    rcases quotedChar_cases d with ⟨hd, hquote, hslash, hline⟩ | ⟨e, hd, he⟩
    · obtain ⟨q, hq⟩ := ih (p.advance d)
      refine ⟨q, ?_⟩
      rw [hd, List.singleton_append, scanStringTail.eq_def]
      simp only [if_neg hquote, if_neg hline, if_neg hslash, hq]
    · obtain ⟨q, hq⟩ := ih ((p.advance '\\').advance e)
      refine ⟨q, ?_⟩
      rw [hd, List.cons_append, List.singleton_append, scanStringTail.eq_def]
      simp only [hq, he]
      rfl

theorem scans_text (text : String) {cs : List Char} {ks : List TokenKind} (h : Scans cs ks) :
    Scans ((quoted text).toList ++ cs) (.text text :: ks) := by
  have hlist : (quoted text).toList ++ cs = '"' :: (text.toList.flatMap quotedChar ++ '"' :: cs) := by
    simp [quoted]
  rw [hlist]
  refine Scans.token (by decide) (fun hc => absurd hc (by decide)) (fun p => ?_) h
  obtain ⟨q, hq⟩ := scanStringTail_quoted p text.toList cs (p.advance '"')
  have hstring : ∃ h, scanString p '"' (text.toList.flatMap quotedChar ++ '"' :: cs) =
      .ok ⟨.text text, q, cs, h⟩ := by
    refine ⟨?_, ?_⟩
    · simp only [List.length_append, List.length_cons]
      omega
    · unfold scanString
      split
      · rename_i heq
        rw [hq] at heq
        cases heq
        simp
      · rename_i heq
        rw [hq] at heq
        cases heq
  obtain ⟨hlt, hstring⟩ := hstring
  refine ⟨q, hlt, ?_⟩
  rw [scanToken, if_neg (by decide), if_neg (by decide), if_pos (.inl rfl), hstring]

/-- The first character of a mark and the others. -/
def Mark.chars : Mark → Char × List Char
  | .openParen => ('(', []) | .closeParen => (')', []) | .openBrace => ('\x7b', [])
  | .closeBrace => ('\x7d', []) | .openBracket => ('[', []) | .closeBracket => (']', [])
  | .semicolon => (';', []) | .comma => (',', []) | .dot => ('.', []) | .question => ('?', [])
  | .colon => (':', []) | .assign => ('=', []) | .addAssign => ('+', ['='])
  | .subtractAssign => ('-', ['=']) | .multiplyAssign => ('*', ['='])
  | .divideAssign => ('/', ['=']) | .modulusAssign => ('%', ['=']) | .equal => ('=', ['='])
  | .notEqual => ('!', ['=']) | .strictEqual => ('=', ['=', '=']) | .strictNotEqual => ('!', ['=', '='])
  | .less => ('<', []) | .greater => ('>', []) | .lessEqual => ('<', ['='])
  | .greaterEqual => ('>', ['=']) | .add => ('+', []) | .subtract => ('-', [])
  | .multiply => ('*', []) | .divide => ('/', []) | .modulus => ('%', []) | .not_ => ('!', [])
  | .increment => ('+', ['+']) | .decrement => ('-', ['-']) | .and_ => ('&', ['&'])
  | .or_ => ('|', ['|'])

theorem Mark.spelling_chars (m : Mark) : m.spelling.toList = m.chars.1 :: m.chars.2 := by
  cases m <;> decide

/-- A mark is the longest one where it ends. -/
theorem scanMark?_of_ends (m : Mark) {cs : List Char}
    (hr : (TokenKind.mark m).endsBefore cs = true) :
    scanMark? m.chars.1 (m.chars.2 ++ cs) = some (m, m.chars.2.length) := by
  rw [TokenKind.endsBefore, Bool.not_eq_true'] at hr
  cases cs with
  | nil => cases m <;> rfl
  | cons c cs =>
    have he : m.extendedBy c = false := hr
    cases m <;> simp [Mark.extendedBy] at he <;> simp [Mark.chars, scanMark?, he]

/-- No mark begins like a gap, a word, a number or a string. -/
theorem Mark.chars_apart (m : Mark) : isBlank m.chars.1 = false ∧ isNameStart m.chars.1 = false ∧
    m.chars.1.isDigit = false ∧ m.chars.1 ≠ '"' ∧ m.chars.1 ≠ '\x27' := by
  cases m <;> decide

theorem scans_mark (m : Mark) {cs : List Char} (hr : (TokenKind.mark m).endsBefore cs = true)
    {ks : List TokenKind} (h : Scans cs ks) : Scans (m.spelling.toList ++ cs) (.mark m :: ks) := by
  obtain ⟨hblank, hstart, hdigit, hquote, hother⟩ := m.chars_apart
  have hmark := scanMark?_of_ends m hr
  rw [m.spelling_chars, List.cons_append]
  refine Scans.token hblank ?_ (fun p => ?_) h
  · intro hc
    rw [TokenKind.endsBefore, Bool.not_eq_true'] at hr
    cases m <;> simp [Mark.chars] at hc ⊢
    · cases cs with
      | nil => simp
      | cons c cs =>
        have hall : (¬c = '/' ∧ ¬c = '*') ∧ ¬c = '=' := by simpa [Mark.extendedBy] using hr
        simpa using hall.1
  · rw [scanToken, if_neg (by simp [hstart]), if_neg (by simp [hdigit]), if_neg (by simp [*]), hmark]
    simp only [List.drop_left]
    refine ⟨_, ?_, rfl⟩
    simp only [List.length_append]
    omega

/-- A token that ends before a text is scanned as itself in front of it. -/
theorem TokenKind.scans {k : TokenKind} (hk : k.isSpelled = true) {cs : List Char}
    (hr : k.endsBefore cs = true) {ks : List TokenKind} (h : Scans cs ks) :
    Scans (k.spelling.toList ++ cs) (k :: ks) := by
  cases k with
  | symbol x =>
    have hx : isNameLike x = true ∧ _ := Bool.and_eq_true_iff.mp hk
    have hword : TokenKind.ofWord x = .symbol x := by
      rw [TokenKind.ofWord, List.find?_eq_none.mpr]
      exact fun k hk => by simpa using List.all_eq_true.mp hx.2 k hk
    have hscans := scans_word hx.1 (by simpa [TokenKind.endsBefore] using hr) h
    rwa [hword] at hscans
  | number value =>
    cases value with
    | finite negative rank =>
      obtain rfl : negative = false := by simpa [TokenKind.isSpelled] using hk
      have htext : (TokenKind.number (.finite false rank)).spelling.toList =
          (shortestDecimal rank).placed.plain := by
        simp [TokenKind.spelling, Binary64.text, signed]
      rw [htext]
      exact scans_number rank hr h
    | nan | infinite => cases hk
  | text x => exact scans_text x h
  | keyword w =>
    have hword : TokenKind.ofWord w.spelling = .keyword w := by cases w <;> decide
    have hscans := scans_word (isNameLike_spelling w) (by simpa [TokenKind.endsBefore] using hr) h
    rwa [hword] at hscans
  | mark m => exact scans_mark m hr h

end Hoist
