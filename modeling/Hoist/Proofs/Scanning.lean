import Hoist.Program
import Hoist.Proofs.Spelling
import Hoist.Proofs.StatementReading

namespace Hoist

theorem eq_ok_of_toOption {ε α : Type} {x : Except ε α} {a : α} (h : x.toOption = some a) :
    x = .ok a := by
  cases x <;> cases h
  rfl

/-- What can be tested of the outcome of a computation holds of its value. -/
theorem exists_of_toOption_any {ε α : Type} {x : Except ε α} {p : α → Prop} [DecidablePred p]
    (h : x.toOption.any p = true) : ∃ a, x = .ok a ∧ p a := by
  cases x with
  | error => cases h
  | ok a => exact ⟨a, rfl, of_decide_eq_true h⟩

/-- A word is a reserved word or a name that is none. -/
theorem TokenKind.isLegible_ofWord {word : String} (h : isNameLike word = true) :
    (TokenKind.ofWord word).isLegible = true := by
  unfold TokenKind.ofWord
  split
  · rfl
  · rename_i hnone
    refine Bool.and_eq_true_iff.mpr ⟨h, List.all_eq_true.mpr fun k hk => ?_⟩
    simpa using List.find?_eq_none.mp hnone k hk

theorem isUnsigned_ofRank (rank : Nat) : (Binary64.ofRank false rank).isUnsigned = true := by
  unfold Binary64.ofRank
  split <;> rfl

theorem scanWord_isLegible (p : Position) {c : Char} (hc : isNameStart c = true) (cs : List Char) :
    (scanWord p c cs).kind.isLegible = true := by
  refine TokenKind.isLegible_ofWord ?_
  simp only [isNameLike, String.toList_ofList, hc, Bool.true_and, takeRun]
  exact List.all_takeWhile

theorem scanNumber_isLegible {p : Position} {c : Char} (hc : c.isDigit = true) {cs : List Char}
    {scanned : Scanned (cs.length + 1)} (h : scanNumber p c cs = .ok scanned) :
    scanned.kind.isLegible = true := by
  obtain ⟨whole, fraction, hlt, hscan, -⟩ := scanNumber_places p hc cs
  rw [hscan] at h
  cases h
  exact isUnsigned_ofRank _

/-- A token that was scanned can be scanned again. -/
theorem scanToken_isLegible {p : Position} {c : Char} {cs : List Char}
    {scanned : Scanned (cs.length + 1)} (h : scanToken p c cs = .ok scanned) :
    scanned.kind.isLegible = true := by
  unfold scanToken at h
  split at h
  · rename_i hc
    cases h
    exact scanWord_isLegible p hc cs
  · split at h
    · rename_i hc
      exact scanNumber_isLegible hc h
    · split at h
      · unfold scanString at h
        split at h <;> cases h
        rfl
      · split at h <;> cases h
        rfl

theorem scanTokens_legible {p : Position} {cs : List Char} {list : TokenList}
    (h : scanTokens p cs = .ok list) : LegibleTokens list.tokens := by
  fun_induction scanTokens p cs generalizing list with
  | case1 | case3 | case4 => cases h
  | case2 =>
    cases h
    exact fun t ht => absurd ht List.not_mem_nil
  | case5 _ _ q c ds _ _ scanned hscan rest hrest ih =>
    cases h
    intro t ht
    rcases List.mem_cons.mp ht with rfl | ht
    · exact scanToken_isLegible hscan
    · exact ih hrest t ht

/-- Every node of a shape is marked as a constant where its kind makes it one. -/
def Shape.Marked (s : Shape) : Prop := ∀ n ∈ s.nodes, n.2 = n.1.isConstant

theorem Shape.marked_node {kind : Kind} {constant : Bool} {ss : List Shape} :
    (Shape.node kind constant ss).Marked ↔ constant = kind.isConstant ∧ ∀ s ∈ ss, s.Marked := by
  rw [Marked, nodes]
  simp only [List.mem_cons, List.mem_flatMap, forall_eq_or_imp]
  refine and_congr_right fun _ => ⟨fun h s hs n hn => h n ⟨s, hs, hn⟩, ?_⟩
  rintro h n ⟨s, hs, hn⟩
  exact h s hs n hn

mutual

/-- The nodes of a draft are marked when they are made. -/
theorem Draft.marked : (d : Draft) → ∀ s ∈ d.shapes, s.Marked
  | .node kind _ before after => by
    intro s hs
    rw [shapes, List.mem_singleton] at hs
    subst hs
    refine Shape.marked_node.mpr ⟨rfl, fun s hs => ?_⟩
    rcases List.mem_append.mp hs with hs | hs
    · exact Draft.all_marked before s hs
    · exact Draft.all_marked after s hs
  | .declarations ds => by
    intro s hs
    rw [shapes] at hs
    obtain ⟨d, hd, rfl⟩ := List.mem_map.mp hs
    exact Shape.marked_node.mpr ⟨rfl, List.forall_mem_singleton.mpr (Draft.all_marked ds d hd)⟩

theorem Draft.all_marked : (ds : List Draft) → ∀ s ∈ Draft.allShapes ds, s.Marked
  | [] => by simp [allShapes]
  | d :: ds => by
    intro s hs
    rw [allShapes, List.mem_append] at hs
    exact hs.elim (Draft.marked d s) (Draft.all_marked ds s)

end

/-- What is read from a text is a script of what is parsed from its tokens. -/
theorem script_of_readTree {file text : String} {t : Tree} (h : readTree file text = .ok t) :
    ∃ list script, tokenize text = .ok list ∧ parseScript list = .ok script ∧
      t = .ofStatements script := by
  unfold readTree readTokens at h
  cases htokens : tokenize text with
  | error => rw [htokens] at h; cases h
  | ok list =>
    rw [htokens] at h
    change (Except.mapError _ (parseScript list) >>= _) = _ at h
    cases hscript : parseScript list with
    | error => rw [hscript] at h; cases h
    | ok script =>
      rw [hscript] at h
      cases h
      exact ⟨list, script, rfl, hscript, rfl⟩

/-- What reading a text gives: one program, which can be written and read again, and no node beside
it. -/
theorem readTree_holds {file text : String} {t : Tree} (h : readTree file text = .ok t) :
    ∃ b : Branch, t.Holds [b] ∧ b.id = Tree.root ∧ b.shape.Proper .program ∧ b.shape.Marked ∧
      t.size = b.ids.length := by
  obtain ⟨list, script, hlist, hscript, rfl⟩ := script_of_readTree h
  obtain ⟨b, hb, hid, hshape, hsize⟩ := ofStatements_holds script
  refine ⟨b, hb, hid, ?_, ?_, hsize⟩
  · have hare := are_parseScript (scanTokens_legible hlist) hscript
    rw [hshape]
    exact Shape.made_node rfl (by simp [Kind.parts]) rfl hare.forall₂
  · rw [hshape]
    exact Shape.marked_node.mpr ⟨rfl, Draft.all_marked script⟩

end Hoist
