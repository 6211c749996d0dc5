import Hoist.Proofs.Rereading
import Hoist.Proofs.Segmenting
import Mathlib

namespace Hoist

theorem TokenKind.endsBefore_nil (k : TokenKind) : k.endsBefore [] = true := by
  cases k <;> rfl

/-- Tokens with single spaces between them are scanned as themselves. -/
theorem scans_spelled {ks : List TokenKind} (hk : ∀ k ∈ ks, k.isSpelled = true) :
    Scans ([' '].intercalate (ks.map fun k => k.spelling.toList)) ks := by
  induction ks with
  | nil => exact scans_nil
  | cons k ks ih =>
    obtain ⟨hfirst, hrest⟩ := List.forall_mem_cons.mp hk
    cases ks with
    | nil =>
      rw [List.map_singleton, List.intercalate_singleton, ← List.append_nil k.spelling.toList]
      exact TokenKind.scans hfirst k.endsBefore_nil scans_nil
    | cons l ks =>
      rw [List.map_cons, List.map_cons, List.intercalate_cons_cons, List.append_assoc]
      exact TokenKind.scans hfirst (endsBefore_space _ _) ((ih hrest).blank (by decide))

/-- Tokens of any kinds, each in its spelling and with single spaces between them, are read from that
text, and its end is where the last one ends. A string may stand for any text. -/
theorem tokenize_spelled {ks : List TokenKind} (hk : ∀ k ∈ ks, k.isSpelled = true) :
    ∃ list, tokenize (" ".intercalate (ks.map TokenKind.spelling)) = .ok list ∧
      list.tokens.map Token.kind = ks ∧
        list.finish = Position.start.after (" ".intercalate (ks.map TokenKind.spelling)).toList := by
  have hscans : Scans (" ".intercalate (ks.map TokenKind.spelling)).toList ks := by
    rw [String.toList_intercalate, List.map_map]
    exact scans_spelled hk
  obtain ⟨list, hlist, hkinds⟩ := hscans .start
  obtain ⟨-, -, -, -, -, hfinish⟩ := scanTokens_segmented .nil hlist
  exact ⟨list, hlist, hkinds, hfinish⟩

theorem tokenize_spelled_of_strings :
    (∀ k ∈ [.text "\"\\\n\r\x00\u2028'", .mark .divide, .mark .divide, .mark .dot,
      .number (.ofPlaces ['1', '5'] ['2', '5']), .mark .dot, .symbol "iff", .keyword .if_],
        TokenKind.isSpelled k = true) ∧
    ∃ list, tokenize (" ".intercalate ([.text "\"\\\n\r\x00\u2028'", .mark .divide, .mark .divide,
      .mark .dot, .number (.ofPlaces ['1', '5'] ['2', '5']), .mark .dot, .symbol "iff",
        .keyword .if_].map TokenKind.spelling)) = .ok list ∧
      list.tokens.map Token.kind = [.text "\"\\\n\r\x00\u2028'", .mark .divide, .mark .divide,
        .mark .dot, .number (.ofPlaces ['1', '5'] ['2', '5']), .mark .dot, .symbol "iff",
          .keyword .if_] := by
  have hspelled : ∀ k ∈ [.text "\"\\\n\r\x00\u2028'", .mark .divide, .mark .divide, .mark .dot,
      .number (.ofPlaces ['1', '5'] ['2', '5']), .mark .dot, .symbol "iff", .keyword .if_],
        TokenKind.isSpelled k = true := by decide +kernel
  obtain ⟨list, hlist, hkinds, -⟩ := tokenize_spelled hspelled
  exact ⟨hspelled, list, hlist, hkinds⟩

/-- Digits, perhaps with a point and more digits behind them, are read as the number that they
write. -/
theorem tokenize_places {whole fraction : List Char} (hne : whole ≠ [])
    (hwhole : ∀ c ∈ whole, c.isDigit = true) (hfraction : ∀ c ∈ fraction, c.isDigit = true) :
    ∃ list, tokenize (String.ofList (placesText whole fraction)) = .ok list ∧
      list.tokens.map Token.kind = [.number (.ofPlaces whole fraction)] := by
  have hscans : Scans (placesText whole fraction ++ []) [.number (.ofPlaces whole fraction)] :=
    scans_places hne hwhole hfraction rfl rfl scans_nil
  rw [List.append_nil] at hscans
  rw [tokenize, String.toList_ofList]
  exact hscans .start

/-- A number is read from its own text where that is not the name of an infinity. -/
theorem tokenize_text {value : Binary64} (h : (TokenKind.number value).isSpelled = true) :
    ∃ list, tokenize value.text = .ok list ∧ list.tokens.map Token.kind = [.number value] := by
  have hscans := TokenKind.scans h (TokenKind.endsBefore_nil _) scans_nil
  rw [List.append_nil] at hscans
  exact hscans .start

theorem isSpelled_ofPlaces {whole fraction : List Char}
    (h : Binary64.ofPlaces whole fraction ≠ .infinite false) :
    (TokenKind.number (.ofPlaces whole fraction)).isSpelled = true := by
  unfold Binary64.ofPlaces Binary64.ofDecimal Binary64.ofRank at h ⊢
  split
  · rfl
  · rename_i hrank
    rw [dif_neg hrank] at h
    exact absurd rfl h

/-- The text of a node that is a number is the text of the number. -/
theorem Tree.sourceOf_number {t : Tree} {n : NodeId} {value : Binary64}
    (h : t.kind n = .number value) : t.sourceOf n = value.text := by
  have hkind : (t.shape n).kind = .number value := by
    rw [shape]
    cases t.size <;> exact h
  rw [sourceOf]
  cases hs : t.shape n with
  | node kind constant ss =>
    obtain rfl : kind = .number value := by rw [hs] at hkind; exact hkind
    simp [Shape.written, Written.kind, Written.pieces, Written.expression, Kind.level?, layout,
      piecesText, Piece.text, TokenKind.spelling, primaryLevel, commaLevel]

/-- An infinity is written as a name. -/
theorem tokenize_text_infinite : ∃ list, tokenize (Binary64.infinite false).text = .ok list ∧
    list.tokens.map Token.kind = [.symbol "inf"] := by
  have hrun : (tokenize (Binary64.infinite false).text).toOption.any (fun list =>
      list.tokens.map Token.kind = [.symbol "inf"]) = true := by decide +kernel
  obtain ⟨list, hlist, hkinds⟩ := exists_of_toOption_any hrun
  exact ⟨list, hlist, hkinds⟩

/-- A number is read again from its own text exactly where it is finite. -/
theorem tokenize_text_iff {whole fraction : List Char} :
    (∃ list, tokenize (Binary64.ofPlaces whole fraction).text = .ok list ∧
      list.tokens.map Token.kind = [.number (.ofPlaces whole fraction)]) ↔
        Binary64.ofPlaces whole fraction ≠ .infinite false := by
  refine ⟨?_, fun h => tokenize_text (isSpelled_ofPlaces h)⟩
  rintro ⟨list, hlist, hkinds⟩ hinfinite
  obtain ⟨list', hlist', hkinds'⟩ := tokenize_text_infinite
  rw [hinfinite, hlist'] at hlist
  cases hlist
  rw [hkinds'] at hkinds
  cases hkinds

/-- Programs with finite numbers that are written the same are the same. -/
theorem shape_of_source_eq {file copy text other : String} {t u : Tree}
    (ht : readTree file text = .ok t) (hu : readTree copy other = .ok u)
    (hf : (t.shape Tree.root).All Kind.isFinite) (hg : (u.shape Tree.root).All Kind.isFinite)
    (h : t.source = u.source) : t.shape Tree.root = u.shape Tree.root := by
  have hback : ∀ {file text : String} {t : Tree}, readTree file text = .ok t →
      (t.shape Tree.root).All Kind.isFinite →
        ∃ v, readTree "" t.source = .ok v ∧ v.shape Tree.root = t.shape Tree.root := by
    intro file text t ht hf
    obtain ⟨b, hb, hroot, hproper, hmarked, -⟩ := readTree_holds ht
    have hshape : t.shape Tree.root = b.shape := by
      rw [← hroot]
      exact Tree.Holds.shape (z := []) (o := []) hb
    obtain ⟨v, hv, hsame⟩ := (readTree_written (hshape ▸ hproper) hf "").1
    exact ⟨v, hv, by rw [hsame, Shape.marked_eq (hshape ▸ hmarked)]⟩
  obtain ⟨v, hv, hsame⟩ := hback ht hf
  obtain ⟨w, hw, hsame'⟩ := hback hu hg
  rw [h, hw] at hv
  cases hv
  exact hsame.symm.trans hsame'

/-- Digits, perhaps with a point and more digits behind them, are read as the number that they
write. A node with that number is written as a text that is read as the same number, exactly
where it is finite, and programs with finite numbers only are not written the same where a number or
anything else differs. -/
theorem finite_numbers_read_back {whole fraction : List Char} (hne : whole ≠ [])
    (hdigits : ∀ c ∈ whole ++ fraction, c.isDigit = true) :
    (∃ list, tokenize (String.ofList (placesText whole fraction)) = .ok list ∧
      list.tokens.map Token.kind = [.number (.ofPlaces whole fraction)]) ∧
    (∀ {t : Tree} {n : NodeId}, t.kind n = .number (.ofPlaces whole fraction) →
      ((∃ list, tokenize (t.sourceOf n) = .ok list ∧
        list.tokens.map Token.kind = [.number (.ofPlaces whole fraction)]) ↔
          Binary64.ofPlaces whole fraction ≠ .infinite false)) ∧
    ∀ {file copy text other : String} {t u : Tree},
      readTree file text = .ok t → readTree copy other = .ok u →
        (t.shape Tree.root).All Kind.isFinite → (u.shape Tree.root).All Kind.isFinite →
          t.source = u.source → t.shape Tree.root = u.shape Tree.root := by
  refine ⟨?_, fun hn => ?_, shape_of_source_eq⟩
  · obtain ⟨hwhole, hfraction⟩ := List.forall_mem_append.mp hdigits
    exact tokenize_places hne hwhole hfraction
  · rw [Tree.sourceOf_number hn]
    exact tokenize_text_iff

theorem Tree.shapeFrom_all {t : Tree} {P : Kind → Bool} (h : ∀ n, P (t.kind n) = true)
    (budget : Nat) (n : NodeId) : (t.shapeFrom budget n).All P := by
  induction budget generalizing n with
  | zero => exact Shape.all_node.mpr ⟨h n, by simp⟩
  | succ budget ih => exact Shape.all_node.mpr ⟨h n, List.forall_mem_map.mpr fun m _ => ih m⟩

/-- A program is finite where all nodes of its tree are. -/
theorem Tree.isFinite_of_nodes {t : Tree}
    (h : t.nodes.toList.all (fun m => m.kind.isFinite) = true) (n : NodeId) :
    (t.shape n).All Kind.isFinite := by
  refine shapeFrom_all (fun m => ?_) t.size n
  rw [kind, node]
  cases hm : t.nodes[m]? with
  | none => rfl
  | some found => exact List.all_eq_true.mp h found (Array.mem_toList_iff.mpr (Array.mem_of_getElem? hm))

theorem finite_numbers_read_back_of_tenth : ∃ t u n,
    readTree "m.js" "x = (00.10);" = .ok t ∧ readTree "n.js" "(x = 0.1);" = .ok u ∧
      (t.shape Tree.root).All Kind.isFinite ∧ (u.shape Tree.root).All Kind.isFinite ∧
        t.source = u.source ∧ t.shape Tree.root = u.shape Tree.root ∧
          t.kind n = .number (.ofPlaces ['0', '0'] ['1', '0']) ∧
            ∃ list, tokenize (t.sourceOf n) = .ok list ∧
              list.tokens.map Token.kind = [.number (.ofPlaces ['0', '0'] ['1', '0'])] := by
  have hfirst : (readTree "m.js" "x = (00.10);").toOption.any (fun t =>
      t.nodes.toList.all (fun m => m.kind.isFinite) = true ∧ t.source = "x = 0.1;" ∧
        t.kind 2 = .number (.ofPlaces ['0', '0'] ['1', '0'])) = true := by decide +kernel
  have hsecond : (readTree "n.js" "(x = 0.1);").toOption.any (fun u =>
      u.nodes.toList.all (fun m => m.kind.isFinite) = true ∧ u.source = "x = 0.1;") = true := by
    decide +kernel
  obtain ⟨t, ht, hf, hsource, hkind⟩ := exists_of_toOption_any hfirst
  obtain ⟨u, hu, hg, hsource'⟩ := exists_of_toOption_any hsecond
  have hfinite : Binary64.ofPlaces ['0', '0'] ['1', '0'] ≠ .infinite false := by decide +kernel
  have hsame : t.source = u.source := hsource.trans hsource'.symm
  have hdigits : ∀ c ∈ ['0', '0'] ++ ['1', '0'], c.isDigit = true :=
    List.all_eq_true.mp rfl
  obtain ⟨-, hliteral, hprograms⟩ := finite_numbers_read_back (List.cons_ne_nil _ _) hdigits
  have htokens := (hliteral hkind).mpr hfinite
  have ht' := Tree.isFinite_of_nodes hf Tree.root
  have hu' := Tree.isFinite_of_nodes hg Tree.root
  exact ⟨t, u, 2, ht, hu, ht', hu', hsame, hprograms ht hu ht' hu' hsame, hkind, htokens⟩

/-- A number past the largest finite one is written as a name, and so two programs are written the
same, one with the number and one with the name. -/
theorem exists_number_written_as_name : ∃ t u,
    readTree "m.js" ("x = 1" ++ String.ofList (List.replicate 309 '0') ++ ";") = .ok t ∧
      readTree "m.js" "x = inf;" = .ok u ∧ t.source = "x = inf;" ∧ u.source = "x = inf;" ∧
        t.kind 2 = .number (.infinite false) ∧ u.kind 2 = .name "inf" ∧
          (tokenize (t.sourceOf 2)).toOption.map (·.tokens.map Token.kind) = some [.symbol "inf"] := by
  have hchars : ("x = 1" ++ String.ofList (List.replicate 309 '0') ++ ";").toList =
      "x = 1".toList ++ List.replicate 309 '0' ++ ";".toList := by
    rw [String.toList_append, String.toList_append, String.toList_ofList (l := List.replicate 309 '0')]
  have hnumber : (readTree "m.js"
      ("x = 1" ++ String.ofList (List.replicate 309 '0') ++ ";")).toOption.any (fun t =>
        t.source = "x = inf;" ∧ t.kind 2 = .number (.infinite false) ∧
          (tokenize (t.sourceOf 2)).toOption.map (·.tokens.map Token.kind) =
            some [.symbol "inf"]) = true := by
    -- The characters are given as a list, since reading them off a text takes long.
    unfold readTree readTokens
    rw [tokenize, hchars]
    decide +kernel
  have hname : (readTree "m.js" "x = inf;").toOption.any (fun u =>
      u.source = "x = inf;" ∧ u.kind 2 = .name "inf") = true := by decide +kernel
  obtain ⟨t, ht, htsource, htkind, htokens⟩ := exists_of_toOption_any hnumber
  obtain ⟨u, hu, husource, hukind⟩ := exists_of_toOption_any hname
  exact ⟨t, u, ht, hu, htsource, husource, htkind, hukind, htokens⟩

end Hoist
