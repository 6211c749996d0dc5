import Hoist.Proofs.Forms
import Hoist.Proofs.Pieces

namespace Hoist

/-- Whether a token can be the first one of an operand. -/
def TokenKind.opensOperand : TokenKind → Bool
  | .symbol _ | .number _ | .text _ => true
  | .keyword k => k = .function || k = .new || k = .true_ || k = .false_ || k = .null ||
    k = .this_ || k = .typeof || k = .delete || k = .void
  | .mark m => m = .openParen || m = .openBrace || m = .openBracket || m = .add || m = .subtract ||
    m = .not_ || m = .increment || m = .decrement

/-- Pieces begin with the first token of an operand. A name does not look like a label. -/
def Opens (ps : List Piece) : Prop :=
  ∃ k rest, ps = .token k :: rest ∧ k.opensOperand = true ∧
    ∀ x, k = .symbol x → (pieceTokens rest).head? ≠ some (.mark .colon)

theorem Kind.le_level_of_isTarget {kind : Kind} (h : kind.isTarget = true) :
    callLevel ≤ kind.level?.getD primaryLevel := by
  cases kind <;> first | exact Nat.le_of_ble_eq_true rfl | cases h

theorem BinaryOp.mark_ne_colon (op : BinaryOp) : op.mark ≠ .colon := by cases op <;> simp [mark]

namespace Opens

theorem token {k : TokenKind} (hk : k.opensOperand = true) (ps : List Piece)
    (hx : ∀ x, k ≠ .symbol x) : Opens (.token k :: ps) :=
  ⟨k, ps, rfl, hk, fun x h => absurd h (hx x)⟩

theorem append {ps qs : List Piece} (h : Opens ps)
    (hq : (pieceTokens qs).head? ≠ some (.mark .colon)) : Opens (ps ++ qs) := by
  obtain ⟨k, rest, rfl, hk, hx⟩ := h
  refine ⟨k, rest ++ qs, rfl, hk, fun x hkx => ?_⟩
  rw [pieceTokens_append]
  cases hrest : pieceTokens rest with
  | nil => exact hq
  | cons l ls =>
    have hne := hx x hkx
    rw [hrest] at hne
    exact hne

end Opens

namespace Shape

theorem writtenAll_eq (ss : List Shape) : writtenAll ss = ss.map written := by
  induction ss with
  | nil => rw [writtenAll, List.map_nil]
  | cons s ss ih => rw [writtenAll, ih, List.map_cons]

theorem written_node (kind : Kind) (constant : Bool) (ss : List Shape) :
    (node kind constant ss).written =
      .node kind (layout kind (ss.map written)) (ss.map written) := by
  rw [written, writtenAll_eq]

@[simp] theorem kind_node (kind : Kind) (constant : Bool) (ss : List Shape) :
    (node kind constant ss).kind = kind := rfl

@[simp] theorem kind_written (s : Shape) : s.written.kind = s.kind := by
  obtain ⟨kind, constant, ss⟩ := s
  rw [written_node]
  rfl

@[simp] theorem pieces_written (kind : Kind) (constant : Bool) (ss : List Shape) :
    (node kind constant ss).written.pieces = layout kind (ss.map written) := by
  rw [written_node]
  rfl

@[simp] theorem children_written (kind : Kind) (constant : Bool) (ss : List Shape) :
    (node kind constant ss).written.children = ss.map written := by
  rw [written_node]
  rfl

/-- A statement is written as it is laid out where it is no expression. -/
theorem statement_written {kind : Kind} (hl : kind.level? = none) (he : kind ≠ .empty)
    (constant : Bool) (ss : List Shape) :
    (node kind constant ss).written.statement = layout kind (ss.map written) := by
  rw [written_node, Written.statement, Written.kind, Written.pieces]
  split
  · exact absurd rfl he
  · cases hl
  · rw [if_neg (by simp [hl])]

end Shape

/-- The initializer of a `for` loop. -/
def initialPieces : Written → List Piece
  | .node .var _ declarators => declarationPieces declarators
  | w => w.expression commaLevel

theorem layout_for (first condition update body : Written) :
    layout .for_ [first, condition, update, body] =
      [.keyword .for_, .space, .mark .openParen] ++ initialPieces first ++
        [.mark .semicolon, .space] ++ condition.expression commaLevel ++
          [.mark .semicolon, .space] ++ update.expression commaLevel ++
            [.mark .closeParen, .space] ++ body.statement := by
  obtain ⟨kind, pieces, children⟩ := first
  cases kind <;> rfl

theorem opens_expression {s : Shape} (h : Opens s.written.pieces) (level : Nat) :
    Opens (s.written.expression level) := by
  unfold Written.expression
  split
  · exact .token rfl _ (by simp)
  · exact h

/-- An expression begins with the first token of an operand. -/
theorem Shape.Made.opens {P : Kind → Bool} {s : Shape} (h : s.Made P .expression) :
    Opens s.written.pieces := by
  induction s using Shape.induct with
  | node kind constant ss ih =>
    rw [Shape.pieces_written]
    have hfirst : ∀ {a : Shape} {rest : List Shape}, ss = a :: rest → a.Made P .expression →
        ∀ level, Opens (a.written.expression level) := fun he ha level =>
      opens_expression (ih _ (he ▸ List.mem_cons_self) ha) level
    cases h.form with
    | name x => exact ⟨_, [], rfl, rfl, by simp⟩
    | literal _ hk =>
      cases kind with
      | number | text | true_ | false_ | null | this_ => exact .token rfl _ (by simp)
      | _ => cases hk
    | array | object => exact .token rfl _ (by simp)
    | function name =>
      cases name <;> exact .token rfl _ (by simp)
    | call _ callee ss hc h => exact (hfirst rfl hc _).append (by simp [parenthesized, Piece.mark])
    | new => exact .token rfl _ (by simp)
    | property x _ object _ ho => exact (hfirst rfl ho _).append (by simp [Piece.mark])
    | element _ object key ho =>
      simp only [layout, List.append_assoc]
      exact (hfirst rfl ho _).append (by simp [Piece.mark])
    | assignment _ target value hk hp ht =>
      have ht' := hfirst rfl ht.expression_of_target stepLevel
      cases kind with
      | assign =>
        simp only [layout, List.append_assoc]
        exact ht'.append (by simp [Piece.mark])
      | assignOp op =>
        simp only [layout, List.append_assoc]
        refine ht'.append ?_
        cases op <;> simp [Piece.mark, BinaryOp.assignPieces, BinaryOp.mark]
      | _ => cases hk
    | conditional _ a b c ha =>
      simp only [layout, List.append_assoc]
      exact (hfirst rfl ha _).append (by simp [Piece.mark])
    | pair _ a b hk ha =>
      cases kind with
      | comma | or_ | and_ =>
        simp only [layout, List.append_assoc]
        exact (hfirst rfl ha _).append (by simp [Piece.mark, Piece.comma])
      | binary op =>
        simp only [layout, List.append_assoc]
        exact (hfirst rfl ha _).append (by simp [Piece.mark, op.mark_ne_colon])
      | _ => cases hk
    | unary op =>
      cases op <;> simp only [layout, unaryPieces]
      case negate | plus => split <;> exact .token rfl _ (by simp)
      all_goals exact .token rfl _ (by simp)
    | increment isDecrement isPostfix _ a ha =>
      cases isPostfix with
      | false => cases isDecrement <;> exact .token rfl _ (by simp)
      | true =>
        cases isDecrement <;> exact (hfirst rfl ha.expression_of_target _).append (by simp [Piece.mark])

end Hoist
