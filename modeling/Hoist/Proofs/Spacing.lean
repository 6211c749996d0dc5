import Hoist.Proofs.Opening
import Hoist.Proofs.Scanning

namespace Hoist

/-- Whether a node of this kind is no number beyond the finite ones. -/
def Kind.isFinite : Kind → Bool
  | .number (.finite _ _) => true
  | .number _ => false
  | _ => true

/-- Whether a node of this kind is written so that it can be read again. -/
def Kind.isPrinted (k : Kind) : Bool := k.isLegible && k.isFinite

@[simp] theorem isSpelled_keyword (k : Keyword) : (TokenKind.keyword k).isSpelled = true := rfl

@[simp] theorem isSpelled_mark (m : Mark) : (TokenKind.mark m).isSpelled = true := rfl

@[simp] theorem spelling_mark (m : Mark) : (TokenKind.mark m).spelling = m.spelling := rfl

@[simp] theorem isOperandEnd_keyword (k : Keyword) : (TokenKind.keyword k).isOperandEnd = true := rfl

@[simp] theorem isOperandEnd_symbol (x : String) : (TokenKind.symbol x).isOperandEnd = true := rfl

@[simp] theorem endsOperand_nil : endsOperand [] = true := rfl

@[simp] theorem endsOperand_space (cs : List Char) : endsOperand (' ' :: cs) = true := by
  rw [endsOperand, List.head?_cons, Option.any_some,
    show isNamePart ' ' = false by decide]
  rfl

/-- Marks but the point end every operand. -/
@[simp] theorem endsOperand_mark {m : Mark} (hm : m ≠ .dot) (cs : List Char) :
    endsOperand (m.spelling.toList ++ cs) = true := by
  rw [m.spelling_chars, endsOperand, List.cons_append, List.head?_cons, Option.any_some]
  have hname : isNamePart m.chars.1 = false := by cases m <;> decide
  have hpoint : ∀ ds, startsFraction (m.chars.1 :: ds) = false := by
    cases m <;> first | exact absurd rfl hm | exact fun _ => rfl
  rw [hname, hpoint]
  rfl

/-- A point in front of a word ends an operand. -/
theorem endsOperand_dot {word : String} (hw : isNameLike word = true) (cs : List Char) :
    endsOperand (Mark.dot.spelling.toList ++ (word.toList ++ cs)) = true := by
  rw [isNameLike] at hw
  cases hl : word.toList with
  | nil => rw [hl] at hw; cases hw
  | cons c ds =>
    rw [hl] at hw
    have hstart : isNameStart c = true := (Bool.and_eq_true_iff.mp hw).1
    have hdigit : c.isDigit = false := by
      cases hd : c.isDigit with
      | false => rfl
      | true => rw [(isDigit_only hd).1] at hstart; cases hstart
    have hpart : isNamePart '.' = false := by decide
    simp [Mark.spelling_chars, Mark.chars, endsOperand, startsFraction, hdigit, hpart]

@[simp] theorem endsBefore_space (k : TokenKind) (cs : List Char) :
    k.endsBefore (' ' :: cs) = true := by
  have hpart : isNamePart ' ' = false := by decide
  cases k with
  | symbol | keyword => simp [TokenKind.endsBefore, hpart]
  | number => rfl
  | text => rfl
  | mark m => cases m <;> rfl

/-- Whether a mark is itself whatever follows. -/
def Mark.isWhole (m : Mark) : Bool :=
  !(m matches .assign | .not_ | .less | .greater | .multiply | .modulus | .equal | .notEqual |
    .add | .subtract | .divide)

@[simp] theorem endsBefore_whole {m : Mark} (hm : m.isWhole = true) (cs : List Char) :
    (TokenKind.mark m).endsBefore cs = true := by
  cases m <;> cases hm <;> cases cs <;> rfl

/-- Pieces that can stand before whatever ends an operand. -/
def OperandApart (ps : List Piece) : Prop := ∀ cs, endsOperand cs = true → Apart ps cs

/-- Operands can stand between commas. -/
theorem OperandApart.commas {pss : List (List Piece)} (h : ∀ ps ∈ pss, OperandApart ps) :
    OperandApart (Piece.comma.intercalate pss) := by
  intro cs hcs
  induction pss with
  | nil => trivial
  | cons ps pss ih =>
    cases pss with
    | nil =>
      rw [List.intercalate_singleton]
      exact h ps List.mem_cons_self cs hcs
    | cons qs pss =>
      rw [List.intercalate_cons_cons, apart_append, apart_append]
      refine ⟨⟨h ps List.mem_cons_self _ ?_, rfl, ?_, trivial⟩, ih fun qs hq =>
        h qs (List.mem_cons_of_mem _ hq)⟩
      · simp only [Piece.comma, Piece.mark, pieceChars_token, List.append_assoc]
        exact endsOperand_mark (by decide) _
      · exact endsBefore_whole rfl _

/-- Statements can stand with spaces between them. -/
theorem apart_spaces {pss : List (List Piece)} {cs : List Char} (h : ∀ ps ∈ pss, ∀ cs, Apart ps cs) :
    Apart ([Piece.space].intercalate pss) cs := by
  induction pss with
  | nil => trivial
  | cons ps pss ih =>
    cases pss with
    | nil =>
      rw [List.intercalate_singleton]
      exact h ps List.mem_cons_self cs
    | cons qs pss =>
      rw [List.intercalate_cons_cons, apart_append, apart_append]
      exact ⟨⟨h ps List.mem_cons_self _, trivial⟩, ih fun qs hq => h qs (List.mem_cons_of_mem _ hq)⟩

/-- What is in parentheses can stand before anything. -/
theorem apart_parenthesized {ps : List Piece} (h : OperandApart ps) (cs : List Char) :
    Apart (parenthesized ps) cs := by
  simp only [parenthesized, Piece.mark, List.cons_append, apart_token, apart_append,
    pieceChars_token, pieceChars_nil, List.append_assoc, List.nil_append, apart_nil, and_true]
  exact ⟨rfl, endsBefore_whole rfl _, h _ (endsOperand_mark (by decide) _), rfl,
    endsBefore_whole rfl _⟩

theorem spelling_ofWord (x : String) : (TokenKind.ofWord x).spelling = x := by
  unfold TokenKind.ofWord
  split
  · rename_i k hk
    have hx : k.spelling = x := by simpa using List.find?_some hk
    exact hx
  · rfl

theorem isOperandEnd_ofWord (x : String) : (TokenKind.ofWord x).isOperandEnd = true := by
  unfold TokenKind.ofWord
  split <;> rfl

theorem isSpelled_ofWord {x : String} (hx : isNameLike x = true) :
    (TokenKind.ofWord x).isSpelled = true := by
  have h := TokenKind.isLegible_ofWord hx
  have hword := isOperandEnd_ofWord x
  cases hk : TokenKind.ofWord x with
  | symbol y =>
    rw [hk] at h
    exact h
  | number value =>
    unfold TokenKind.ofWord at hk
    split at hk <;> cases hk
  | text | keyword | mark => rfl

/-- A token can stand alone as an operand. -/
theorem operandApart_token {k : TokenKind} (hk : k.isSpelled = true) (he : k.isOperandEnd = true) :
    OperandApart [.token k] :=
  fun _ hcs => ⟨hk, endsBefore_of_endsOperand he hcs, trivial⟩

/-- A token ends before a mark. -/
theorem endsBefore_mark {k : TokenKind} (hk : k.isOperandEnd = true) {m : Mark} (hm : m ≠ .dot)
    (cs : List Char) : k.endsBefore (m.spelling.toList ++ cs) = true :=
  endsBefore_of_endsOperand hk (endsOperand_mark hm cs)

@[simp] theorem keyword_endsBefore_mark (w : Keyword) {m : Mark} (hm : m ≠ .dot) (cs : List Char) :
    (TokenKind.keyword w).endsBefore (m.spelling.toList ++ cs) = true :=
  endsBefore_mark rfl hm cs

@[simp] theorem symbol_endsBefore_mark (x : String) {m : Mark} (hm : m ≠ .dot) (cs : List Char) :
    (TokenKind.symbol x).endsBefore (m.spelling.toList ++ cs) = true :=
  endsBefore_mark rfl hm cs

/-- An operand begins with a character that makes no longer mark of a sign, but that sign. -/
theorem Opens.chars {ps : List Piece} {cs : List Char} (h : Opens ps) (ha : Apart ps cs) :
    ∃ c ds, pieceChars ps = c :: ds ∧ c ≠ '=' := by
  obtain ⟨k, rest, rfl, hk, -⟩ := h
  have hspelled : k.isSpelled = true := ha.1
  suffices hfirst : ∃ c ds, k.spelling.toList = c :: ds ∧ c ≠ '=' by
    obtain ⟨c, ds, hc, hne⟩ := hfirst
    exact ⟨c, ds ++ pieceChars rest, by rw [pieceChars_token, hc, List.cons_append], hne⟩
  have hname : ∀ {x : String}, isNameLike x = true → ∃ c ds, x.toList = c :: ds ∧ c ≠ '=' := by
    intro x hx
    rw [isNameLike] at hx
    cases hl : x.toList with
    | nil => rw [hl] at hx; cases hx
    | cons c ds =>
      rw [hl] at hx
      refine ⟨c, ds, rfl, fun hc => ?_⟩
      have hstart := (Bool.and_eq_true_iff.mp hx).1
      rw [hc] at hstart
      exact absurd hstart (by decide)
  cases k with
  | symbol x => exact hname (Bool.and_eq_true_iff.mp hspelled).1
  | keyword w => exact hname (isNameLike_spelling w)
  | text x => exact ⟨'"', x.toList.flatMap quotedChar ++ ['"'], by simp [TokenKind.spelling, quoted],
      by decide⟩
  | number value =>
    cases value with
    | finite negative rank =>
      obtain rfl : negative = false := by simpa [TokenKind.isSpelled] using hspelled
      have hne := PlacedDigits.whole_ne_nil (shortestDecimal rank).placed_ne_nil
      obtain ⟨c, ds, hw⟩ := List.exists_cons_of_ne_nil hne
      have hdigit := PlacedDigits.isDigit_whole (shortestDecimal rank).isDigit_placed c
        (hw ▸ List.mem_cons_self)
      have hc : c ≠ '=' := fun h => absurd hdigit (by rw [h]; decide)
      simp only [TokenKind.spelling, Binary64.text, signed, String.toList_ofList, PlacedDigits.plain,
        hw, Bool.false_eq_true, if_false]
      split
      · exact ⟨c, ds, rfl, hc⟩
      · exact ⟨c, _, rfl, hc⟩
    | nan | infinite => cases hspelled
  | mark m =>
    refine ⟨m.chars.1, m.chars.2, m.spelling_chars, ?_⟩
    cases m <;> cases hk <;> decide

theorem startsWith_of_chars {ps : List Piece} {c : Char} {ds : List Char}
    (h : pieceChars ps = c :: ds) : startsWith ps (String.singleton c) = true := by
  rw [startsWith, toList_piecesText, h]
  simp [String.toList_singleton]

/-- A sign ends before an operand that begins with no character that extends it. -/
theorem Opens.endsBefore {ps : List Piece} {cs : List Char} (h : Opens ps) (ha : Apart ps cs)
    {m : Mark} (hm : ∀ d ds, pieceChars ps = d :: ds → m.extendedBy d = true → d = '=') :
    (TokenKind.mark m).endsBefore (pieceChars ps ++ cs) = true := by
  obtain ⟨d, ds, hd, hne⟩ := h.chars ha
  rw [hd, List.cons_append, TokenKind.endsBefore, List.head?_cons, Option.any_some,
    Bool.not_eq_true']
  cases he : m.extendedBy d with
  | false => rfl
  | true => exact absurd (hm d ds hd he) hne

/-- An operand with a mark between spaces behind it. -/
theorem OperandApart.between {ps op qs : List Piece} (hp : OperandApart ps)
    (hop : ∀ cs, Apart op (' ' :: cs)) (hq : OperandApart qs) :
    OperandApart (ps ++ [.space] ++ op ++ [.space] ++ qs) := by
  intro cs hcs
  simp only [apart_append, List.append_assoc, pieceChars_append, pieceChars_space,
    List.nil_append, List.cons_append, apart_space]
  exact ⟨hp _ (endsOperand_space _), hop _, hq _ hcs⟩

theorem apart_mark_space (m : Mark) (cs : List Char) : Apart [.mark m] (' ' :: cs) :=
  ⟨rfl, endsBefore_space _ _, trivial⟩

/-- An operand with a mark behind it. -/
theorem OperandApart.mark {ps qs : List Piece} {cs : List Char} {m : Mark} (hp : OperandApart ps) (hm : m ≠ .dot)
    (hw : m.isWhole = true) (hq : Apart qs cs) : Apart (ps ++ (.mark m :: qs)) cs := by
  simp only [apart_append, Piece.mark, apart_token, pieceChars_token, List.append_assoc]
  exact ⟨hp _ (endsOperand_mark hm _), rfl, endsBefore_whole hw _, hq⟩

end Hoist
