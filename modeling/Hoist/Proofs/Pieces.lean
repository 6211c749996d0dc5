import Hoist.Layout
import Hoist.Proofs.Spelling

namespace Hoist

/-- The characters of several pieces. -/
def pieceChars (ps : List Piece) : List Char := ps.flatMap fun p => p.text.toList

theorem toList_piecesText (ps : List Piece) : (piecesText ps).toList = pieceChars ps := by
  rw [piecesText, String.toList_join, pieceChars, List.flatMap_map]

@[simp] theorem pieceChars_nil : pieceChars [] = [] := rfl

@[simp] theorem pieceChars_token (k : TokenKind) (ps : List Piece) :
    pieceChars (.token k :: ps) = k.spelling.toList ++ pieceChars ps := rfl

@[simp] theorem pieceChars_space (ps : List Piece) :
    pieceChars (.space :: ps) = ' ' :: pieceChars ps := rfl

@[simp] theorem pieceChars_append (ps qs : List Piece) :
    pieceChars (ps ++ qs) = pieceChars ps ++ pieceChars qs := List.flatMap_append

/-- The tokens among several pieces. -/
def pieceTokens : List Piece → List TokenKind
  | [] => []
  | .token k :: ps => k :: pieceTokens ps
  | .space :: ps => pieceTokens ps

@[simp] theorem pieceTokens_nil : pieceTokens [] = [] := rfl

@[simp] theorem pieceTokens_token (k : TokenKind) (ps : List Piece) :
    pieceTokens (.token k :: ps) = k :: pieceTokens ps := rfl

@[simp] theorem pieceTokens_space (ps : List Piece) :
    pieceTokens (.space :: ps) = pieceTokens ps := rfl

@[simp] theorem pieceTokens_append (ps qs : List Piece) :
    pieceTokens (ps ++ qs) = pieceTokens ps ++ pieceTokens qs := by
  induction ps with
  | nil => rfl
  | cons p ps ih => cases p <;> simp [ih]

/-- Every token among several pieces ends where the next piece begins, or the text behind them. -/
def Apart : List Piece → List Char → Prop
  | [], _ => True
  | .token k :: ps, cs =>
    k.isSpelled = true ∧ k.endsBefore (pieceChars ps ++ cs) = true ∧ Apart ps cs
  | .space :: ps, cs => Apart ps cs

@[simp] theorem apart_nil (cs : List Char) : Apart [] cs := trivial

@[simp] theorem apart_token {k : TokenKind} {ps : List Piece} {cs : List Char} :
    Apart (.token k :: ps) cs ↔
      k.isSpelled = true ∧ k.endsBefore (pieceChars ps ++ cs) = true ∧ Apart ps cs := Iff.rfl

@[simp] theorem apart_space {ps : List Piece} {cs : List Char} :
    Apart (.space :: ps) cs ↔ Apart ps cs := Iff.rfl

@[simp] theorem apart_append {ps qs : List Piece} {cs : List Char} :
    Apart (ps ++ qs) cs ↔ Apart ps (pieceChars qs ++ cs) ∧ Apart qs cs := by
  induction ps with
  | nil => simp
  | cons p ps ih => cases p <;> simp [ih, and_assoc]

/-- Pieces that are apart are scanned as the tokens that they are. -/
theorem Apart.scans {ps : List Piece} {cs : List Char} {ks : List TokenKind} (h : Apart ps cs)
    (hs : Scans cs ks) : Scans (pieceChars ps ++ cs) (pieceTokens ps ++ ks) := by
  induction ps with
  | nil => exact hs
  | cons p ps ih =>
    cases p with
    | token k =>
      obtain ⟨hk, he, hrest⟩ := h
      rw [pieceChars_token, List.append_assoc]
      exact TokenKind.scans hk he (ih hrest)
    | space => exact (ih h).blank (by decide)

/-- Whether the last token of any operand ends before a text. -/
def endsOperand (cs : List Char) : Bool := !cs.head?.any isNamePart && !startsFraction cs

theorem isNamePart_of_isDigit {c : Char} (h : c.isDigit = true) : isNamePart c = true := by
  obtain ⟨n, hn, rfl⟩ := exists_digit h
  revert n
  decide

/-- Whether a token can be the last one of an operand, apart from brackets and steps. -/
def TokenKind.isOperandEnd : TokenKind → Bool
  | .symbol _ | .number _ | .text _ | .keyword _ => true
  | .mark m => m = .closeParen || m = .closeBracket || m = .closeBrace || m = .increment ||
    m = .decrement

theorem endsBefore_of_endsOperand {k : TokenKind} (hk : k.isOperandEnd = true) {cs : List Char}
    (h : endsOperand cs = true) : k.endsBefore cs = true := by
  rw [endsOperand, Bool.and_eq_true, Bool.not_eq_true', Bool.not_eq_true'] at h
  obtain ⟨hname, hpoint⟩ := h
  cases k with
  | symbol | keyword => simp [TokenKind.endsBefore, hname]
  | text => rfl
  | number =>
    rw [TokenKind.endsBefore, hpoint, Bool.not_false, Bool.and_true, Bool.not_eq_true']
    cases cs with
    | nil => rfl
    | cons c cs =>
      cases hd : c.isDigit with
      | false => simpa using hd
      | true =>
        rw [List.head?_cons, Option.any_some, isNamePart_of_isDigit hd] at hname
        cases hname
  | mark m =>
    cases m <;> cases hk <;> cases cs <;> rfl

end Hoist
