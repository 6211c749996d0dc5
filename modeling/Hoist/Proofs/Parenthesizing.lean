import Hoist.Proofs.StatementPaying
import Hoist.Proofs.StatementSparing
import Mathlib

namespace Hoist

/-- A program is written with no more parentheses than all its texts need. -/
theorem Shape.Made.frugal {s : Shape} (h : s.Proper .program) (hp : s.Plain) :
    Frugal s.groups s.written.statement := by
  obtain ⟨kind, constant, ss⟩ := s
  obtain ⟨hadmits, -, slots, hparts, hs⟩ := h.node
  obtain rfl : kind = .script := of_decide_eq_true hadmits
  have hss : ∀ d ∈ ss, d.Proper .statement := parts_any (fun _ => rfl) hparts hs
  rw [statement_written rfl (by simp), groups_loose rfl rfl]
  refine (frugal_statements fun d hd => ?_).mono (Nat.le_of_eq (Nat.zero_add _).symm)
  exact (spares (hp.inside (inside_child (s := .node .script constant ss) hd))).statement (hss d hd)

/-- What was read from a text is written with no more parentheses than all its texts need. -/
theorem frugal_of_readTree {file text : String} {t : Tree} (h : readTree file text = .ok t)
    (hp : (t.shape Tree.root).Plain) :
    Frugal (t.shape Tree.root).groups (t.shape Tree.root).written.statement := by
  obtain ⟨b, hb, hroot, hproper, -⟩ := readTree_holds h
  have hshape : t.shape Tree.root = b.shape := by
    rw [← hroot]
    exact Tree.Holds.shape (z := []) (o := []) hb
  exact (hshape ▸ hproper).frugal hp

/-- No text of a program opens fewer parentheses that enclose something than the one that it is
written as. -/
theorem source_openings_le {file text copy other : String} {t u : Tree}
    (h : readTree file text = .ok t) (hp : (t.shape Tree.root).Plain)
    (hu : readTree copy other = .ok u) (hsame : u.shape Tree.root = t.shape Tree.root) :
    textOpenings (.code false) t.source.toList ≤ textOpenings (.code false) other.toList := by
  obtain ⟨hcalm, hbound⟩ := frugal_of_readTree h hp
  have hneeded := groups_le_of_readTree hu
  rw [hsame] at hneeded
  rw [Tree.source, toList_piecesText, hcalm.textOpenings]
  exact Nat.le_trans hbound hneeded

/-- No parentheses that enclose something are needless in the text of a program: without any pair of
them it is no text of this program. -/
theorem parentheses_needed {file text : String} {t : Tree} (h : readTree file text = .ok t)
    (hp : (t.shape Tree.root).Plain) {before inside behind : List Piece}
    (hw : (t.shape Tree.root).written.statement =
      before ++ .mark .openParen :: inside ++ .mark .closeParen :: behind)
    (hm : Matched (pieceTokens inside)) (hne : pieceTokens inside ≠ []) (copy : String) :
    ¬ ∃ u, readTree copy (piecesText (before ++ inside ++ behind)) = .ok u ∧
      u.shape Tree.root = t.shape Tree.root := by
  rintro ⟨u, hu, hsame⟩
  have hle := source_openings_le h hp hu hsame
  have hcalm := (frugal_of_readTree h hp).calm
  rw [hw] at hcalm
  have hless : Calm (before ++ inside ++ behind) := by
    rw [List.append_assoc] at hcalm
    have hrest := hcalm.behind
    have hinside : Calm (inside ++ .mark .closeParen :: behind) := hrest.2.2
    exact calm_append (calm_append hcalm.front hinside.front) hinside.behind.2.2
  have htokens : pieceTokens (before ++ .mark .openParen :: inside ++ .mark .closeParen :: behind) =
      pieceTokens before ++ .mark .openParen :: pieceTokens inside ++
        .mark .closeParen :: pieceTokens behind := by
    simp [Piece.mark]
  rw [Tree.source, hw, toList_piecesText, hcalm.textOpenings, htokens,
    hm.openings_parenthesized hne, toList_piecesText, hless.textOpenings, pieceTokens_append,
    pieceTokens_append] at hle
  omega

theorem parentheses_needed_of_sum : ∃ t, readTree "m.js" "(a + b) * c;" = .ok t ∧
    t.source = "(a + b) * c;" ∧
      ¬ ∃ u, readTree "n.js" "a + b * c;" = .ok u ∧ u.shape Tree.root = t.shape Tree.root := by
  let sum : List Piece := [.symbol "a", .space, .mark .add, .space, .symbol "b"]
  let behind : List Piece := [.space, .mark .multiply, .space, .symbol "c", .mark .semicolon]
  let product : Shape := .node (.binary .multiply) false
    [.node (.binary .add) false [.node (.name "a") false [], .node (.name "b") false []],
      .node (.name "c") false []]
  have hrun : (readTree "m.js" "(a + b) * c;").toOption.map (fun t => t.shape Tree.root) =
      some (.node .script false [.node .expression false [product]]) := by cbv
  obtain ⟨t, hread, hshape⟩ := Option.map_eq_some_iff.mp hrun
  have ht := eq_ok_of_toOption hread
  have hplain : (t.shape Tree.root).Plain := by
    have hbegins : product.BeginsPlainly := fun hstart => absurd hstart (by decide +kernel)
    rw [hshape]
    simpa [Shape.Plain, Shape.inside, Shape.children, product] using hbegins
  have hw : (t.shape Tree.root).written.statement =
      [] ++ .mark .openParen :: sum ++ .mark .closeParen :: behind := by
    rw [hshape]
    decide +kernel
  have hsum : Matched (pieceTokens sum) :=
    .token (by decide) (by decide) (.token (by decide) (by decide)
      (.token (by decide) (by decide) .nil))
  have htext : piecesText ([] ++ sum ++ behind) = "a + b * c;" := by decide +kernel
  refine ⟨t, ht, ?_, ?_⟩
  · rw [Tree.source, hw]
    decide +kernel
  · rw [← htext]
    exact parentheses_needed ht hplain hw hsum (List.cons_ne_nil _ _) "n.js"

/-- A name that only looks like the word `function` is put in parentheses without need. -/
theorem exists_needless_parentheses : ∃ t, readTree "m.js" "functionality();" = .ok t ∧
    t.source = "(functionality());" ∧ ∃ before inside behind : List Piece,
      (t.shape Tree.root).written.statement =
        before ++ .mark .openParen :: inside ++ .mark .closeParen :: behind ∧
      Matched (pieceTokens inside) ∧ pieceTokens inside ≠ [] ∧
        ∃ u, readTree "m.js" (piecesText (before ++ inside ++ behind)) = .ok u ∧
          u.shape Tree.root = t.shape Tree.root := by
  let call : List Piece := [.symbol "functionality", .mark .openParen, .mark .closeParen]
  have hrun : (readTree "m.js" "functionality();").toOption.map (fun t => t.shape Tree.root) =
      some (.node .script false [.node .expression false [.node .call false
        [.node (.name "functionality") false []]]]) := by cbv
  obtain ⟨t, hread, hshape⟩ := Option.map_eq_some_iff.mp hrun
  have ht := eq_ok_of_toOption hread
  have hw : (t.shape Tree.root).written.statement =
      [] ++ .mark .openParen :: call ++ .mark .closeParen :: [.mark .semicolon] := by
    rw [hshape]
    decide +kernel
  have htext : piecesText ([] ++ call ++ [.mark .semicolon]) = "functionality();" := by
    decide +kernel
  refine ⟨t, ht, ?_, [], call, [.mark .semicolon], hw, ?_, List.cons_ne_nil _ _, t, ?_, rfl⟩
  · rw [Tree.source, hw]
    decide +kernel
  · exact .token (by decide) (by decide) (.pair .nil .nil)
  · rw [htext]
    exact ht

end Hoist
