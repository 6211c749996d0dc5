import Hoist.Proofs.Standing
import Hoist.Proofs.WrittenApart
import Mathlib

namespace Hoist

namespace Shape

variable {s : Shape}

/-- An expression is read as itself where all that it is made of is. -/
theorem Made.climbs (h : s.Proper .expression) (ih : ∀ d ∈ s.inside, d.Readable) : s.Climbs := by
  have hpart : ∀ {d : Shape}, d ∈ s.children → d.Proper .expression → d.Climbs := fun hm hd =>
    (ih _ (inside_child hm)).expression hd
  cases h.form with
  | name x constant => exact climbs_leaf (k := .symbol x) rfl rfl rfl
  | @literal kind constant hk =>
    cases kind with
    | number value => exact climbs_leaf (k := .number value) rfl rfl rfl
    | text value => exact climbs_leaf (k := .text value) rfl rfl rfl
    | true_ => exact climbs_leaf (k := .keyword .true_) rfl rfl rfl
    | false_ => exact climbs_leaf (k := .keyword .false_) rfl rfl rfl
    | null => exact climbs_leaf (k := .keyword .null) rfl rfl rfl
    | this_ => exact climbs_leaf (k := .keyword .this_) rfl rfl rfl
    | _ => cases hk
  | array constant ss hss =>
    exact climbs_array (fun d hd => hpart hd (hss d hd)) fun d hd => (hss d hd).opens
  | object constant ss hss =>
    refine climbs_object fun d hd => ?_
    obtain ⟨x, constant', value, rfl, hvalue⟩ := (hss d hd).entry
    exact ⟨x, constant', value, rfl,
      (ih value (inside_trans hd (inside_child List.mem_cons_self))).expression hvalue⟩
  | function name params constant body _ hb =>
    refine climbs_function (hb.blocks fun d hd => ih d ?_)
    exact inside_trans (c := body) List.mem_cons_self (inside_child hd)
  | call constant callee ss hc hss =>
    exact climbs_call (hpart List.mem_cons_self hc)
      (fun d hd => hpart (List.mem_cons_of_mem _ hd) (hss d hd)) fun d hd => (hss d hd).opens
  | new constant callee ss hc hss =>
    exact climbs_new (hpart List.mem_cons_self hc)
      (fun d hd => hpart (List.mem_cons_of_mem _ hd) (hss d hd)) fun d hd => (hss d hd).opens
  | property x constant object _ ho => exact climbs_property (hpart List.mem_cons_self ho)
  | element constant object key ho hk =>
    exact climbs_element (hpart (by simp [children]) ho) (hpart (by simp [children]) hk)
  | @assignment kind constant target value hk hl ht hv =>
    exact climbs_assignment hk hl ht.kind_of_target
      (hpart (by simp [children]) ht.expression_of_target) (hpart (by simp [children]) hv)
  | conditional constant a b c ha hb hc =>
    exact climbs_conditional (hpart (by simp [children]) ha) (hpart (by simp [children]) hb)
      (hpart (by simp [children]) hc)
  | @pair kind constant a b hk ha hb =>
    have ha := hpart (by simp [children]) ha
    have hb := hpart (by simp [children]) hb
    cases kind with
    | comma => exact climbs_comma ha hb
    | or_ => exact climbs_or ha hb
    | and_ => exact climbs_and ha hb
    | binary op => exact climbs_binary ha hb
    | _ => cases hk
  | unary op constant a ha => exact climbs_unary (hpart List.mem_cons_self ha)
  | increment isDecrement isPostfix constant a ha =>
    exact climbs_increment ha.kind_of_target (hpart List.mem_cons_self ha.expression_of_target)

/-- A statement is read as itself where all that it is made of is. -/
theorem Made.stands (h : s.Proper .statement) (ih : ∀ d ∈ s.inside, d.Readable) : s.Stands := by
  have hpart : ∀ {d : Shape}, d ∈ s.children → d.Proper .expression → d.Climbs := fun hm hd =>
    (ih _ (inside_child hm)).expression hd
  have hblock : ∀ {d : Shape}, d ∈ s.children → d.Proper .block → d.Blocks := fun hm hd =>
    hd.blocks fun e he => ih e (inside_trans hm (inside_child he))
  cases h.statementForm with
  | block constant ss hss =>
    exact stands_block (blocks_node hss fun d hd =>
      (ih d (inside_child (s := .node .block constant ss) hd)).statement (hss d hd))
  | expression constant e he => exact stands_expression he.opens (hpart List.mem_cons_self he)
  | var constant d hd =>
    exact stands_var hd fun e he =>
      ih e (inside_trans (s := .node .var constant [d]) List.mem_cons_self (inside_child he))
  | if_ constant condition first hc hf =>
    exact stands_if (hpart List.mem_cons_self hc) hf (hblock (by simp [children]) hf)
  | ifElse constant condition first second hc hf hs =>
    exact stands_ifElse (hpart List.mem_cons_self hc) hf (hblock (by simp [children]) hf) hs
      (hblock (by simp [children]) hs)
  | return_ constant => exact stands_return
  | returnValue constant e he => exact stands_returnValue he.opens (hpart List.mem_cons_self he)
  | switch constant value ss hv hss =>
    exact stands_switch (hpart List.mem_cons_self hv) hss fun c hc d hd =>
      ih d (inside_trans (s := .node .switch constant (value :: ss)) (List.mem_cons_of_mem _ hc) hd)
  | label x constant labelled _ hl =>
    exact stands_label hl ((ih labelled (inside_child List.mem_cons_self)).statement hl)
  | while_ constant condition body hc hb =>
    exact stands_while (hpart List.mem_cons_self hc) hb (hblock (by simp [children]) hb)
  | doWhile constant body condition hb hc =>
    exact stands_doWhile hb (hblock (by simp [children]) hb) (hpart (by simp [children]) hc)
  | for_ constant first condition update body hf hc hu hb =>
    have hfirst : ∀ d ∈ first :: first.inside, d.Readable :=
      List.forall_mem_cons.mpr ⟨ih first (inside_child (by simp [children])), fun d hd =>
        ih d (inside_trans (c := first) (by simp [children]) hd)⟩
    exact stands_for hf hfirst hc (ih condition (inside_child (by simp [children]))) hu
      (ih update (inside_child (by simp [children]))) hb (hblock (by simp [children]) hb)
  | jump constant hk => exact stands_jump hk
  | throw constant e he => exact stands_throw (hpart List.mem_cons_self he)
  | empty constant => exact stands_empty
  | function name params constant body _ hb =>
    exact stands_function (hblock (d := body) List.mem_cons_self hb)

/-- Every expression and every statement is read as itself. -/
theorem readable (s : Shape) : s.Readable :=
  induct_inside (fun _ ih => ⟨fun h => h.climbs ih, fun h => h.stands ih⟩) s

theorem map_marked {ss : List Shape} (h : ∀ s ∈ ss, s.marked = s) : ss.map marked = ss :=
  (List.map_congr_left (g := id) h).trans (List.map_id ss)

/-- A shape with its marks is what it is marked as. -/
theorem marked_eq (h : s.Marked) : s.marked = s := by
  induction s using Shape.induct with
  | node kind constant ss ih =>
    obtain ⟨rfl, hss⟩ := marked_node.mp h
    rw [marked, map_marked fun s hs => ih s hs (hss s hs)]

theorem Made.printed {slot : Slot} (h : s.Proper slot) (hf : s.All Kind.isFinite) :
    s.Made Kind.isPrinted slot where
  fits := h.fits
  all n hn := Bool.and_eq_true_iff.mpr ⟨h.all n hn, hf n hn⟩

/-- The statements of a program can be read, and written so that they can be told apart. -/
theorem Made.program (h : s.Proper .program) (hf : s.All Kind.isFinite) :
    ∃ (constant : Bool) (ss : List Shape), s = .node .script constant ss ∧
      (∀ d ∈ ss, d.Proper .statement) ∧ ∀ d ∈ ss, ∀ cs, Apart d.written.statement cs := by
  obtain ⟨kind, constant, ss⟩ := s
  obtain ⟨hadmits, -, slots, hp, hs⟩ := h.node
  obtain rfl : kind = .script := of_decide_eq_true hadmits
  have hss : ∀ d ∈ ss, d.Proper .statement := parts_any (fun _ => rfl) hp hs
  refine ⟨constant, ss, rfl, hss, fun d hd => ?_⟩
  exact (spaced d).statement ((hss d hd).printed ((all_node.mp hf).2 d hd))

/-- Statements in lines of their own are scanned as their tokens. -/
theorem scans_lines {ss : List Shape} (h : ∀ s ∈ ss, ∀ cs, Apart s.written.statement cs) :
    Scans ((ss.map written).flatMap fun w => (piecesText w.statement ++ "\n").toList)
      (statementTokens ss) := by
  induction ss with
  | nil => exact scans_nil
  | cons s ss ih =>
    obtain ⟨hfirst, hothers⟩ := List.forall_mem_cons.mp h
    have hline : (piecesText s.written.statement ++ "\n").toList =
        pieceChars s.written.statement ++ ['\n'] := by
      rw [String.toList_append, toList_piecesText]
      rfl
    rw [List.map_cons, List.flatMap_cons, hline, List.append_assoc, statementTokens_cons]
    exact (hfirst _).scans ((ih hothers).blank (by decide))

end Shape

/-- A text that is scanned as the tokens of statements is read as a program of them. -/
theorem readTree_of_scans (file : String) {text : String} {ss : List Shape}
    (hs : ∀ s ∈ ss, s.Proper .statement) (h : Scans text.toList (Shape.statementTokens ss)) :
    ∃ u, readTree file text = .ok u ∧
      u.shape Tree.root = .node .script false (ss.map Shape.marked) := by
  obtain ⟨list, hscan, htokens⟩ := h .start
  have hstands : ∀ s ∈ ss, s.Stands := fun s hm => (Shape.readable s).statement (hs s hm)
  have hall : Yields (statements (fun _ => false) list.tokens) (Draft.DrawsAll ss) [] :=
    Shape.statements_yields (by simp) hs hstands (by rw [htokens, List.append_nil]) (by simp)
  obtain ⟨ds, rest, hlt, hread, hds, -⟩ := hall
  have hparse : parseScript list = .ok ds := by
    rw [parseScript, hread]
  obtain ⟨b, hb, hroot, hshape, -⟩ := ofStatements_holds ds
  refine ⟨.ofStatements ds, ?_, ?_⟩
  · simp only [readTree, readTokens, tokenize, hscan]
    change (Except.mapError _ (parseScript list) >>= _) = _
    rw [hparse]
    rfl
  · have hmade := Tree.Holds.shape (z := []) (o := []) hb
    rw [hroot, hshape, hds] at hmade
    exact hmade

/-- A program that can be read, with finite numbers in it, is written as a text that is read as the
same program, be it on one line or with each statement on a line of its own. -/
theorem readTree_written {t : Tree} (h : (t.shape Tree.root).Proper .program)
    (hf : (t.shape Tree.root).All Kind.isFinite) (file : String) :
    (∃ u, readTree file t.source = .ok u ∧ u.shape Tree.root = (t.shape Tree.root).marked) ∧
      ∃ u, readTree file t.sourceLines = .ok u ∧
        u.shape Tree.root = (t.shape Tree.root).marked := by
  obtain ⟨constant, ss, hnode, hss, happart⟩ := h.program hf
  have hmarks : (t.shape Tree.root).marked = .node .script false (ss.map Shape.marked) := by
    rw [hnode, Shape.marked]
    rfl
  rw [hmarks]
  refine ⟨readTree_of_scans file hss ?_, readTree_of_scans file hss ?_⟩
  · have hjoined : Apart (joinedStatements (ss.map Shape.written)) [] := apart_spaces fun ps hp => by
      simp only [List.map_map, List.mem_map, Function.comp] at hp
      obtain ⟨s, hs, rfl⟩ := hp
      exact happart s hs
    have hscan := hjoined.scans scans_nil
    rw [Shape.tokens_joinedStatements, List.append_nil, List.append_nil] at hscan
    rw [Tree.source, hnode, Shape.statement_written rfl (by simp), toList_piecesText]
    exact hscan
  · rw [Tree.sourceLines, hnode, Shape.children_written, String.toList_join, List.flatMap_map]
    exact Shape.scans_lines happart

/-- What was read from a text, with finite numbers in it, is written as a text that is read as the
same program. -/
theorem readTree_source {file text : String} {t : Tree} (h : readTree file text = .ok t)
    (hf : (t.shape Tree.root).All Kind.isFinite) (copy : String) :
    (∃ u, readTree copy t.source = .ok u ∧ u.shape Tree.root = t.shape Tree.root) ∧
      ∃ u, readTree copy t.sourceLines = .ok u ∧ u.shape Tree.root = t.shape Tree.root := by
  obtain ⟨b, hb, hroot, hproper, hmarked, -⟩ := readTree_holds h
  have hshape : t.shape Tree.root = b.shape := by
    rw [← hroot]
    exact Tree.Holds.shape (z := []) (o := []) hb
  have hwritten := readTree_written (hshape ▸ hproper) hf copy
  rwa [Shape.marked_eq (hshape ▸ hmarked)] at hwritten

theorem readTree_source_of_choice : ∃ t, readTree "m.js" "x = a ? -(-b) : new (f())(c.if);" = .ok t ∧
    (t.shape Tree.root).All Kind.isFinite ∧
      (∃ u, readTree "n.js" t.source = .ok u ∧ u.shape Tree.root = t.shape Tree.root) ∧
        ∃ u, readTree "n.js" t.sourceLines = .ok u ∧ u.shape Tree.root = t.shape Tree.root := by
  have hrun : (readTree "m.js" "x = a ? -(-b) : new (f())(c.if);").toOption.any (fun t =>
      (t.shape Tree.root).nodes.all (fun n => n.1.isFinite) = true) = true := by cbv
  obtain ⟨t, ht, hall⟩ := exists_of_toOption_any hrun
  have hf : (t.shape Tree.root).All Kind.isFinite := List.all_eq_true.mp hall
  obtain ⟨hline, hlines⟩ := readTree_source ht hf "n.js"
  exact ⟨t, ht, hf, hline, hlines⟩

end Hoist
