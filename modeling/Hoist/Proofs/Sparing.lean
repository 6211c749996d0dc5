import Hoist.Proofs.Grouping
import Hoist.Proofs.Parentheses
import Hoist.Proofs.Spacing

namespace Hoist

/-- Pieces that can be read and open at most so many parentheses that enclose something. -/
structure Frugal (n : Nat) (ps : List Piece) : Prop where
  calm : Calm ps
  bound : openings false (pieceTokens ps) ≤ n

namespace Frugal

variable {m n : Nat} {ps qs : List Piece} {k : TokenKind}

theorem nil : Frugal 0 [] := ⟨trivial, Nat.le_refl _⟩

theorem mono (h : Frugal m ps) (hn : m ≤ n) : Frugal n ps := ⟨h.calm, Nat.le_trans h.bound hn⟩

theorem append (h : Frugal m ps) (h' : Frugal n qs) : Frugal (m + n) (ps ++ qs) where
  calm := calm_append h.calm h'.calm
  bound := by
    rw [pieceTokens_append]
    exact Nat.le_trans openings_append_le (Nat.add_le_add h.bound h'.bound)

theorem space (h : Frugal n ps) : Frugal n (.space :: ps) := ⟨h.calm, h.bound⟩

/-- A token that is no opening parenthesis. A slash is followed by a space. -/
theorem token (hk : k.isLegible = true) (ho : k ≠ .mark .openParen)
    (hd : k = .mark .divide → ps.head? = some .space) (h : Frugal n ps) :
    Frugal n (.token k :: ps) where
  calm := ⟨hk, hd, h.calm⟩
  bound := by
    rw [pieceTokens_token, openings_false_cons ho]
    exact h.bound

theorem mark {m : Mark} (hm : m ≠ .openParen ∧ m ≠ .divide) (h : Frugal n ps) :
    Frugal n (.mark m :: ps) :=
  h.token rfl (fun ho => hm.1 (TokenKind.mark.inj ho)) fun hd => absurd (TokenKind.mark.inj hd) hm.2

theorem keyword (w : Keyword) (h : Frugal n ps) : Frugal n (.keyword w :: ps) :=
  h.token rfl nofun nofun

theorem symbol {x : String} (hx : isSymbol x = true) (h : Frugal n ps) :
    Frugal n (.symbol x :: ps) :=
  h.token hx nofun nofun

/-- What is in parentheses costs one parenthesis more. -/
theorem parenthesized (h : Frugal n ps) : Frugal (n + 1) (parenthesized ps) where
  calm := calm_append (show Calm (.mark .openParen :: ps) from ⟨rfl, nofun, h.calm⟩) ⟨rfl, nofun, trivial⟩
  bound := by
    have hinside : openings false (pieceTokens ps ++ [.mark .closeParen]) ≤ n :=
      Nat.le_trans openings_append_le h.bound
    have htokens : pieceTokens (Hoist.parenthesized ps) =
        .mark .openParen :: (pieceTokens ps ++ [.mark .closeParen]) := by
      simp [Hoist.parenthesized, Piece.mark]
    rw [htokens, openings_open, Bool.toNat_false, Nat.zero_add]
    exact Nat.le_trans openings_true_le (Nat.succ_le_succ hinside)

/-- Parentheses that enclose nothing are free. -/
theorem parenthesized_nil : Frugal 0 (Hoist.parenthesized []) :=
  ⟨⟨rfl, nofun, rfl, nofun, trivial⟩, Nat.le_refl _⟩

/-- A mark between two operands. -/
theorem between {k : Mark} (hk : k ≠ .openParen) (h : Frugal m ps) (h' : Frugal n qs) :
    Frugal (m + n) (ps ++ [.space] ++ [.mark k] ++ [.space] ++ qs) := by
  have hmark : Frugal n (.mark k :: .space :: qs) :=
    .token rfl (fun ho => hk (TokenKind.mark.inj ho)) (fun _ => rfl) h'.space
  simpa using h.append hmark.space

/-- Something between separators. -/
theorem intercalate {α : Type} {sep : List Piece} (hsep : Frugal 0 sep) {f : α → List Piece}
    {g : α → Nat} {xs : List α} (h : ∀ x ∈ xs, Frugal (g x) (f x)) :
    Frugal (xs.map g).sum (sep.intercalate (xs.map f)) := by
  induction xs with
  | nil => exact nil
  | cons x xs ih =>
    obtain ⟨hx, hxs⟩ := List.forall_mem_cons.mp h
    cases xs with
    | nil => simpa [List.intercalate_singleton] using hx
    | cons y xs =>
      have hall := (hx.append hsep).append (ih hxs)
      rw [Nat.add_zero] at hall
      simpa only [List.map_cons, List.sum_cons, List.intercalate_cons_cons] using hall

theorem comma : Frugal 0 Piece.comma := .mark (by decide) (.space .nil)

end Frugal

theorem BinaryOp.mark_ne_openParen (op : BinaryOp) : op.mark ≠ .openParen := by
  cases op <;> simp [mark]

namespace Shape

/-- What all texts of a shape need is all that it is written with. -/
structure Spares (s : Shape) : Prop where
  expression : s.Proper .expression → Frugal s.groups s.written.pieces
  statement : s.Proper .statement → Frugal s.groups s.written.statement
  clause : s.Proper .clause → Frugal s.groups s.written.statement

variable {s : Shape}

theorem frugal_expression (h : Frugal s.groups s.written.pieces) (level : Nat) :
    Frugal (s.groupsAt level) (s.written.expression level) := by
  have hkind : s.written.kind.level?.getD primaryLevel = s.level := by rw [kind_written]; rfl
  rw [Written.expression, hkind, groupsAt]
  by_cases hl : s.level < level
  · rw [if_pos hl, decide_eq_true hl]
    exact h.parenthesized
  · rw [if_neg hl, decide_eq_false hl]
    exact h

theorem frugal_operands {ss : List Shape} (h : ∀ s ∈ ss, Frugal s.groups s.written.pieces) :
    Frugal (groupsAll assignLevel assignLevel ss) (joinedOperands (ss.map written)) := by
  rw [groupsAll_eq_sum, joinedOperands, List.map_map]
  exact .intercalate .comma fun s hs => frugal_expression (h s hs) _

/-- The arguments of a call. -/
theorem frugal_arguments {ss : List Shape} (h : ∀ s ∈ ss, Frugal s.groups s.written.pieces) :
    Frugal ((!ss.isEmpty).toNat + groupsAll assignLevel assignLevel ss)
      (parenthesized (joinedOperands (ss.map written))) := by
  cases ss with
  | nil => exact .parenthesized_nil
  | cons s ss => exact (frugal_operands h).parenthesized.mono (Nat.le_of_eq (Nat.add_comm _ _))

theorem frugal_statements {ss : List Shape} (h : ∀ s ∈ ss, Frugal s.groups s.written.statement) :
    Frugal (ss.map groups).sum (joinedStatements (ss.map written)) := by
  rw [joinedStatements, List.map_map]
  exact .intercalate (.space .nil) h

theorem frugal_spacedStatements {ss : List Shape}
    (h : ∀ s ∈ ss, Frugal s.groups s.written.statement) :
    Frugal (ss.map groups).sum (spacedStatements (ss.map written)) := by
  induction ss with
  | nil => exact .nil
  | cons s ss ih =>
    obtain ⟨hs, hss⟩ := List.forall_mem_cons.mp h
    exact hs.space.append (ih hss)

theorem frugal_function {name : Option String} {params : List String} {body : Shape} {n : Nat}
    (hk : (Kind.function name params).isLegible = true) (hb : Frugal n body.written.statement) :
    Frugal ((!params.isEmpty).toNat + n) (functionPieces name params [body.written]) := by
  obtain ⟨hname, hparams⟩ := Bool.and_eq_true_iff.mp hk
  have hlist : Frugal (!params.isEmpty).toNat
      (parenthesized (Piece.comma.intercalate (params.map fun p => [Piece.symbol p]))) := by
    cases params with
    | nil => exact .parenthesized_nil
    | cons p params =>
      have hall := Frugal.intercalate (f := fun p => [Piece.symbol p]) (g := fun _ => 0) .comma
        fun p hp => Frugal.symbol (List.all_eq_true.mp hparams p hp) .nil
      exact hall.parenthesized.mono (by simp)
  have hrest := hlist.append (hb.space)
  cases name with
  | none => simpa [functionPieces, statementAt] using hrest.keyword .function
  | some x => simpa [functionPieces, statementAt] using ((hrest.symbol hname).space).keyword .function

theorem frugal_entry {x : String} {constant : Bool} {value : Shape}
    (h : Frugal value.groups value.written.pieces) :
    Frugal (node (.key x) constant [value]).groups
      (entryPieces (node (.key x) constant [value]).written.kind
        (node (.key x) constant [value]).written.children) := by
  rw [kind_written, children_written, groups_node, groupsAll_cons, groupsAll_nil]
  have hvalue := frugal_expression h assignLevel
  have hrest : Frugal (value.groupsAt assignLevel)
      ([.mark .colon, .space] ++ value.written.expression assignLevel) :=
    hvalue.space.mark (by decide)
  refine Frugal.mono ?_ (Nat.le_of_eq (Nat.zero_add _).symm)
  simp only [entryPieces, kind_node]
  split
  · rename_i hname
    exact hrest.token (TokenKind.isLegible_ofWord hname) (TokenKind.ofWord_ne_mark _ _)
      fun h => absurd h (TokenKind.ofWord_ne_mark _ _)
  · exact hrest.token rfl nofun nofun

/-- An expression is written with what all its texts need, where all that it is made of is. -/
theorem spares_expression (hs : s.Proper .expression) (ih : ∀ d ∈ s.inside, d.Spares) :
    Frugal s.groups s.written.pieces := by
  have hinside : ∀ {a : Shape}, a ∈ s.children → a.Proper .expression →
      Frugal a.groups a.written.pieces := fun ha hm => (ih _ (inside_child ha)).expression hm
  have hpart : ∀ {a : Shape}, a ∈ s.children → a.Proper .expression → ∀ level,
      Frugal (a.groupsAt level) (a.written.expression level) :=
    fun ha hm => frugal_expression (hinside ha hm)
  cases hs.form with
  | name x constant hx =>
    rw [pieces_written, groups_node, groupsAll_nil]
    exact .symbol hx .nil
  | @literal kind constant hk h =>
    rw [pieces_written, groups_node, groupsAll_nil]
    cases kind with
    | number | text | true_ | false_ | null | this_ => exact .token h nofun nofun .nil
    | _ => cases hk
  | array constant ss hss =>
    rw [pieces_written, groups_node]
    have hlist := frugal_operands fun s hm => hinside hm (hss s hm)
    have hall := (hlist.append (.mark (m := .closeBracket) (by decide) .nil)).mark (m := .openBracket) (by decide)
    exact hall.mono (Nat.le_of_eq (Nat.add_comm _ _))
  | object constant ss hss =>
    rw [pieces_written, groups_loose rfl rfl]
    have hlist : Frugal (ss.map groups).sum
        (Piece.comma.intercalate ((ss.map written).map fun w => entryPieces w.kind w.children)) := by
      rw [List.map_map]
      refine .intercalate .comma fun d hd => ?_
      obtain ⟨x, constant', value, rfl, hvalue⟩ := (hss d hd).entry
      have hv := (ih value (inside_trans hd (inside_child List.mem_cons_self))).expression hvalue
      exact frugal_entry hv
    have hall := (hlist.append (.mark (m := .closeBrace) (by decide) .nil)).mark
      (m := .openBrace) (by decide)
    exact hall.mono (Nat.le_of_eq (Nat.add_comm _ _))
  | function name params constant body h hb =>
    rw [pieces_written, groups_loose rfl rfl]
    have hbody := (ih body (inside_child List.mem_cons_self)).statement hb.statement
    exact (frugal_function h hbody).mono (Nat.add_le_add_left (Nat.le_add_right _ _) _)
  | call constant callee ss hc hss =>
    rw [pieces_written, groups_node, groupsAll_cons]
    have hcallee := hpart (a := callee) List.mem_cons_self hc callLevel
    have hargs := frugal_arguments fun s hm => hinside (List.mem_cons_of_mem _ hm) (hss s hm)
    refine (hcallee.append hargs).mono (Nat.le_of_eq ?_)
    exact Nat.add_left_comm _ _ _
  | new constant callee ss hc hss =>
    rw [pieces_written, groups_node, groupsAll_cons]
    have hcallee := hpart (a := callee) List.mem_cons_self hc callLevel
    have hargs := frugal_arguments fun s hm => hinside (List.mem_cons_of_mem _ hm) (hss s hm)
    have hwrapped : Frugal (callee.groupsAt callLevel + callee.callsThrough.toNat)
        (if callee.written.callsThrough then
          parenthesized (callee.written.expression callLevel)
        else callee.written.expression callLevel) := by
      rw [callsThrough]
      split
      · rename_i hcalls
        rw [hcalls]
        exact hcallee.parenthesized
      · exact hcallee.mono (Nat.le_add_right _ _)
    have hown : ownGroups .new (callee :: ss) =
        (!ss.isEmpty).toNat + callee.callsThrough.toNat := rfl
    rw [hown]
    refine (((hwrapped.append hargs).space).keyword .new).mono (Nat.le_of_eq ?_)
    simp only [Kind.firstLevel, Kind.otherLevel]
    omega
  | property x constant object hx ho =>
    rw [pieces_written, groups_node, groupsAll_cons, groupsAll_nil]
    have hobject := hpart (a := object) List.mem_cons_self ho callLevel
    have hname : Frugal 0 [.mark .dot, .word x] := .mark (by decide)
      (.token (TokenKind.isLegible_ofWord hx) (TokenKind.ofWord_ne_mark _ _)
        (fun h => absurd h (TokenKind.ofWord_ne_mark _ _)) .nil)
    exact (hobject.append hname).mono (Nat.le_of_eq (Nat.zero_add _).symm)
  | element constant object key ho hk =>
    rw [pieces_written, groups_node, groupsAll_cons, groupsAll_cons, groupsAll_nil]
    have hobject := hpart (a := object) (by simp [children]) ho callLevel
    have hkey := hpart (a := key) (by simp [children]) hk commaLevel
    have hopen : Frugal 0 [.mark .openBracket] := .mark (by decide) .nil
    have hclose : Frugal 0 [.mark .closeBracket] := .mark (by decide) .nil
    refine (((hobject.append hopen).append hkey).append hclose).mono (Nat.le_of_eq ?_)
    simp only [ownGroups, Kind.firstLevel, Kind.otherLevel]
    omega
  | @assignment kind constant target value hk h ht hv =>
    have ht' := hpart (a := target) (by simp [children]) ht.expression_of_target stepLevel
    have hv' := hpart (a := value) (by simp [children]) hv assignLevel
    rw [pieces_written, groups_node, groupsAll_cons, groupsAll_cons, groupsAll_nil]
    cases kind with
    | assign =>
      exact (ht'.between (k := .assign) (by decide) hv').mono (Nat.le_of_eq (Nat.zero_add _).symm)
    | assignOp op =>
      refine Frugal.mono ?_ (Nat.le_of_eq (Nat.zero_add _).symm)
      cases op with
      | add => exact ht'.between (k := .addAssign) (by decide) hv'
      | subtract => exact ht'.between (k := .subtractAssign) (by decide) hv'
      | multiply => exact ht'.between (k := .multiplyAssign) (by decide) hv'
      | divide => exact ht'.between (k := .divideAssign) (by decide) hv'
      | modulus => exact ht'.between (k := .modulusAssign) (by decide) hv'
      | _ => cases h
    | _ => cases hk
  | conditional constant a b c ha hb hc =>
    have ha' := hpart (a := a) (by simp [children]) ha orLevel
    have hb' := hpart (a := b) (by simp [children]) hb assignLevel
    have hc' := hpart (a := c) (by simp [children]) hc assignLevel
    rw [pieces_written, groups_node, groupsAll_cons, groupsAll_cons, groupsAll_cons, groupsAll_nil]
    have hall := (ha'.between (k := .question) (by decide) hb').between (k := .colon) (by decide) hc'
    refine Frugal.mono (by simpa [layout, expressionAt] using hall) (Nat.le_of_eq ?_)
    simp only [ownGroups, Kind.firstLevel, Kind.otherLevel]
    omega
  | @pair kind constant a b hk ha hb =>
    have ha' := hpart (a := a) (by simp [children]) ha kind.firstLevel
    have hb' := hpart (a := b) (by simp [children]) hb kind.otherLevel
    rw [pieces_written, groups_node, groupsAll_cons, groupsAll_cons, groupsAll_nil]
    have hown : ownGroups kind [a, b] = 0 := by cases kind <;> first | rfl | cases hk
    rw [hown, Nat.zero_add, Nat.add_zero]
    cases kind with
    | comma =>
      have hall := (ha'.append .comma).append hb'
      rwa [Nat.add_zero] at hall
    | or_ => exact ha'.between (k := .or_) (by decide) hb'
    | and_ => exact ha'.between (k := .and_) (by decide) hb'
    | binary op => exact ha'.between (k := op.mark) op.mark_ne_openParen hb'
    | _ => cases hk
  | unary op constant a ha =>
    have ha' := hpart (a := a) List.mem_cons_self ha unaryLevel
    rw [pieces_written, groups_node, groupsAll_cons, groupsAll_nil]
    have hown : ownGroups (.unary op) [a] = 0 := rfl
    rw [hown, Nat.zero_add, Nat.add_zero]
    cases op with
    | not_ => exact ha'.mark (by decide)
    | typeof => exact ha'.space.keyword .typeof
    | void => exact ha'.space.keyword .void
    | delete => exact ha'.space.keyword .delete
    | negate =>
      simp only [layout, unaryPieces]
      split
      · exact ha'.space.mark (by decide)
      · exact ha'.mark (by decide)
    | plus =>
      simp only [layout, unaryPieces]
      split
      · exact ha'.space.mark (by decide)
      · exact ha'.mark (by decide)
  | increment isDecrement isPostfix constant a ha =>
    have ha' := hpart (a := a) List.mem_cons_self ha.expression_of_target stepLevel
    rw [pieces_written, groups_node, groupsAll_cons, groupsAll_nil]
    have hown : ownGroups (.increment isDecrement isPostfix) [a] = 0 := rfl
    rw [hown, Nat.zero_add, Nat.add_zero]
    have hstep : ∀ {n : Nat} {ps : List Piece}, Frugal n ps →
        Frugal n (Piece.mark (if isDecrement then .decrement else .increment) :: ps) := by
      intro n ps h
      cases isDecrement <;> exact h.mark (by decide)
    cases isPostfix with
    | false => exact hstep ha'
    | true => exact ha'.append (hstep .nil)

end Shape

end Hoist
