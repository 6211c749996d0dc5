import Hoist.Proofs.Decomposing
import Hoist.Proofs.ScopedTurns
import Mathlib

namespace Hoist

variable {P : String → Bool} {p : String} {known : List String} {declared : Bool}

/-- The names of variables, functions and parameters that a node of this kind spells. -/
def Kind.spells : Kind → List String
  | .name x => [x]
  | .function x params => x.toList ++ params
  | _ => []

namespace Tree

variable {t : Tree} {o : List Branch}

/-- The names of the variables, functions and parameters of a program. -/
def names (t : Tree) : List String := (t.preorder root).flatMap fun n => (t.kind n).spells

/-- A node declares a name: it stands directly in a `var`. -/
def Declares (t : Tree) (d : NodeId) (x : String) : Prop :=
  t.name? d = some x ∧ (t.parent d).any (t.kind · = .var) = true

/-- A node is in the reach of a declarator: it stands in a statement behind that of the declarator
in the same list. -/
def Reaches (t : Tree) (d n : NodeId) : Prop :=
  ∃ list statement later before between behind,
    t.isStatementList list = true ∧
    t.children list = before ++ statement :: between ++ later :: behind ∧
    t.kind statement = .var ∧ d ∈ t.children statement ∧ t.isDescendantOrSelf n later = true

/-- The names of a sort are declared once each, before they are used. Some of them are never
assigned but where they are declared. -/
structure Settles (t : Tree) (P : String → Bool) (constants : List String) : Prop where
  /-- Every occurrence is the only declarator of the name, or in the reach of that. -/
  occurrences : ∀ n ∈ t.preorder root, ∀ x, t.name? n = some x → P x = true →
    ∃ d ∈ t.preorder root, t.Declares d x ∧
      (∀ d' ∈ t.preorder root, t.Declares d' x → d' = d) ∧ (n = d ∨ t.Reaches d n)
  functions : ∀ n ∈ t.preorder root, (t.kind n).isFunction = true →
    ∀ x ∈ (t.kind n).spells, P x = false
  constants : ∀ n ∈ t.preorder root, (t.kind n).assignsFirst = true →
    ∀ c, t.firstChild n = some c → ∀ x ∈ constants, t.name? c ≠ some x

/-- Every node of a branch is of a certain sort if every node that a tree names is. -/
theorem Holds.all_iff {Q : Kind → Bool} {z : List Frame} {b : Branch}
    (h : t.Holds (plug z b :: o)) : b.All Q ↔ ∀ n ∈ b.ids, Q (t.kind n) = true := by
  have hsame := h.shows.any_ids (fun n => !Q (t.kind n)) (fun tag => !Q tag.kind) fun c hc => by
    rw [hc.kind]
    rfl
  have hall : b.All Q ↔ b.tags.any (fun tag => !Q tag.kind) = false := by
    clear hsame h
    induction b using Branch.induct with
    | node tag cs ih =>
      rw [all_branch, Branch.tags, List.any_cons, Bool.or_eq_false_iff, List.any_flatMap,
        List.any_eq_false]
      refine and_congr (by simp) (forall₂_congr fun c hc => ?_)
      rw [ih c hc, Bool.not_eq_true]
  rw [hall, ← hsame, List.any_eq_false]
  simp

end Tree

section Start

/-- Where no name is of a sort nothing is declared, and everything is in scope. -/
theorem scoped_of_spells (hP : Reserves P p) {b : Branch}
    (h : b.All fun k => k.spells.all (!P ·)) :
    b.temporaries P = [] ∧ b.Scoped P p known declared := by
  have hbare : ∀ {c : Branch} {x : String}, (c.All fun k => k.spells.all (!P ·)) →
      c.kind.name? = some x → P x = false := by
    rintro ⟨tag, cs⟩ x hc hx
    have hk := (all_branch.mp hc).1
    rw [Branch.kind_node] at hx
    cases hkind : tag.kind <;> rw [hkind] at hx hk <;> cases hx
    simpa [Kind.spells] using hk
  have hreserved : ∀ {c : Branch} {x : String}, (c.All fun k => k.spells.all (!P ·)) →
      c.bareName? = some x → P x = false := by
    intro c x hc hx
    rw [Branch.bareName?] at hx
    split at hx
    · exact hbare hc hx
    · cases hx
  induction b using Branch.induct generalizing known declared with
  | node tag cs ih =>
    have hcs := (all_branch.mp h).2
    have hnone : (Branch.node tag cs).temporaries P = [] := by
      rw [temporaries_node, List.append_eq_nil_iff, List.flatMap_eq_nil_iff, List.filter_eq_nil_iff]
      refine ⟨fun x hx => ?_, fun c hc => (@ih c hc [] false (hcs c hc)).1⟩
      rw [Branch.declares] at hx
      split at hx
      · obtain ⟨c, hc, hname⟩ := List.mem_filterMap.mp hx
        simp [hbare (hcs c hc) hname]
      · cases hx
    refine ⟨hnone, scoped_node.mpr ⟨fun _ x hx hp => ?_, ⟨fun _ c hc k he => ?_, fun _ hne => ?_⟩, ?_⟩⟩
    · rw [hreserved h hx] at hp
      cases hp
    · have hfalse := hreserved (hcs c (List.mem_of_mem_head? hc)) he
      rw [hP.constant] at hfalse
      cases hfalse
    · exact absurd hnone hne
    · generalize tag.kind.isStatementList = ordered
      generalize decide (tag.kind = .var) = inside
      clear hnone h
      induction cs generalizing known with
      | nil => rw [Branch.AllScoped]; trivial
      | cons c cs ih' =>
        rw [Branch.AllScoped]
        exact ⟨(ih c List.mem_cons_self (hcs c List.mem_cons_self)).2,
          ih' (fun d hd => ih d (List.mem_cons_of_mem _ hd)) fun d hd =>
            hcs d (List.mem_cons_of_mem _ hd)⟩

end Start

section Work

variable {b b' b'' : Branch} {s s' s'' : Supply}

theorem Widens.refl (hb : b.Scoped P p [] false) (hs : s.Named p) : Widens P p b s b s :=
  ⟨hb, hs, Nat.le_refl _, [], drawn_nil, .refl _⟩

theorem Widens.trans (h : Widens P p b s b' s') (h' : Widens P p b' s' b'' s'') :
    Widens P p b s b'' s'' := by
  obtain ⟨ns, hns, hperm⟩ := h.drawn
  obtain ⟨ms, hms, hperm'⟩ := h'.drawn
  refine ⟨h'.inScope, h'.named, Nat.le_trans h.grows h'.grows, ns ++ ms,
    hns.append hms h.grows h'.grows, List.perm_iff_count.mpr fun x => ?_⟩
  have hone := hperm.count_eq x
  have htwo := hperm'.count_eq x
  simp only [List.count_append] at hone htwo ⊢
  omega

/-- The work on calls keeps temporaries scoped, and declares those that it makes once each. -/
theorem Run.widens (h : Run b s b' s') (hP : Reserves P p) (hb : b.Fits true .program)
    (hn : s.Named p) (hs : b.Scoped P p [] false) : Widens P p b s b' s' := by
  induction h with
  | refl => exact .refl hs hn
  | step turn call _ ih =>
    have hfirst := turn.widens hP call hb hn hs
    exact hfirst.trans (ih (turn.fits call hb) hfirst.named hfirst.inScope)

end Work

section Places

/-- What is known in a branch is declared in a statement before one that the branch stands in. -/
theorem exists_declared {z : List Frame} {c : Branch} (h : (plug z c).Scoped P p known declared) :
    ∃ K d, c.Scoped P p K d ∧
      (d = true → z = [] ∧ declared = true ∨ ∃ f outer, z = f :: outer ∧ f.tag.kind = .var) ∧
      ∀ x ∈ K, x ∈ known ∨ ∃ inner tag before statement between behind outer,
        z = inner ++ ⟨tag, before ++ statement :: between, behind⟩ :: outer ∧
          tag.kind.isStatementList = true ∧ x ∈ Branch.declares statement := by
  induction z generalizing c with
  | nil => exact ⟨known, declared, h, fun hd => .inl ⟨rfl, hd⟩, fun x hx => .inl hx⟩
  | cons f z ih =>
    obtain ⟨K, d, hfill, -, hplaces⟩ := ih h
    have hrest := (allScoped_append.mp (scoped_node.mp hfill).2.2).2
    rw [Branch.AllScoped] at hrest
    refine ⟨_, _, hrest.1, fun hd => .inr ⟨f, z, rfl, of_decide_eq_true hd⟩, fun x hx => ?_⟩
    have houter : x ∈ K → x ∈ known ∨ ∃ inner tag before statement between behind outer,
        f :: z = inner ++ ⟨tag, before ++ statement :: between, behind⟩ :: outer ∧
          tag.kind.isStatementList = true ∧ x ∈ Branch.declares statement := by
      intro hx
      refine (hplaces x hx).imp_right ?_
      rintro ⟨inner, tag, before, statement, between, behind, outer, rfl, hrest⟩
      exact ⟨f :: inner, tag, before, statement, between, behind, outer, rfl, hrest⟩
    cases hlist : f.tag.kind.isStatementList with
    | false =>
      rw [hlist] at hx
      exact houter hx
    | true =>
      rw [hlist, if_pos rfl] at hx
      rcases List.mem_append.mp hx with hx | hx
      · exact houter hx
      · obtain ⟨statement, hmem, hdeclares⟩ := List.mem_flatMap.mp hx
        obtain ⟨before, between, hleft⟩ := List.append_of_mem hmem
        obtain ⟨tag, left, behind⟩ := f
        obtain rfl : left = before ++ statement :: between := hleft
        exact .inr ⟨[], tag, before, statement, between, behind, z, rfl, hlist, hdeclares⟩

variable {loose : Bool} {c : Branch} {z : List Frame} {x : String}

/-- A name that holds nothing is bare, and one that holds something is declared. -/
theorem bareName?_or_declared (h : (plug z c).Fits loose .program) (hx : c.kind.name? = some x) :
    c.bareName? = some x ∨ ∃ f outer, z = f :: outer ∧ f.tag.kind = .var := by
  obtain ⟨slot, hfits, hframed⟩ := framed_of_fits h
  by_cases hslot : slot = .declarator
  · subst hslot
    cases hframed with
    | inside _ parts => exact .inr ⟨_, _, rfl, Kind.eq_var parts⟩
  · refine .inl ?_
    obtain ⟨tag, cs⟩ := c
    have hadmits := (Branch.fits_node.mp hfits).1
    rw [Branch.kind_node] at hx
    cases hk : tag.kind with
    | name y =>
      have hnone : cs.length = 0 := by
        rw [hk] at hadmits
        cases slot <;> simp_all [Slot.admits, Kind.isStatement, Kind.isExpression, Kind.name?]
      obtain rfl := List.length_eq_zero_iff.mp hnone
      simp [Branch.bareName?, Branch.children, Branch.kind, Branch.tag, hk, ← hx]
    | _ =>
      rw [hk] at hx
      cases hx

/-- The declarators in a branch. -/
def Branch.declarators : Branch → List Tag
  | .node tag cs => (if tag.kind = .var then cs.map Branch.tag else []) ++ cs.flatMap declarators

theorem temporaries_eq_declarators (b : Branch) :
    b.temporaries P = (b.declarators.filterMap fun tag => tag.kind.name?).filter P := by
  induction b using Branch.induct with
  | node tag cs ih =>
    rw [temporaries_node, Branch.declarators, List.filterMap_append, List.filter_append,
      List.filterMap_flatMap, List.filter_flatMap]
    congr 1
    · rw [Branch.declares, Branch.kind_node, Branch.children_node]
      split
      · rw [List.filterMap_map]
        rfl
      · rfl
    · exact List.flatMap_congr ih

theorem declarators_plug (h : Tag) (hb : h ∈ c.declarators) (z : List Frame) :
    h ∈ (plug z c).declarators := by
  induction z generalizing c with
  | nil => exact hb
  | cons f z ih =>
    refine ih ?_
    rw [Frame.fill, Branch.declarators]
    exact List.mem_append_right _ (List.mem_flatMap.mpr ⟨c, by simp, hb⟩)

/-- A declarator in a branch stands in a `var`. -/
theorem exists_plug_of_mem_declarators {b : Branch} {d : Tag} (h : d ∈ b.declarators) :
    ∃ f outer c, b = plug (f :: outer) c ∧ f.tag.kind = .var ∧ c.tag = d := by
  induction b using Branch.induct with
  | node tag cs ih =>
    rw [Branch.declarators] at h
    rcases List.mem_append.mp h with h | h
    · split at h
      · rename_i hvar
        obtain ⟨c, hc, hd⟩ := List.mem_map.mp h
        obtain ⟨ls, rs, rfl⟩ := List.append_of_mem hc
        exact ⟨⟨tag, ls, rs⟩, [], c, rfl, hvar, hd⟩
      · cases h
    · obtain ⟨c, hc, hd⟩ := List.mem_flatMap.mp h
      obtain ⟨ls, rs, rfl⟩ := List.append_of_mem hc
      obtain ⟨f, outer, a, rfl, hf, ha⟩ := ih c hc hd
      exact ⟨f, outer ++ [⟨tag, ls, rs⟩], a, by rw [node_plug, List.cons_append], hf, ha⟩

/-- What is declared once has one declarator. -/
theorem eq_of_declarators {b : Branch} {d e : Tag} (hb : (b.temporaries P).Nodup)
    (hd : d ∈ b.declarators) (he : e ∈ b.declarators) (hdx : d.kind.name? = some x)
    (hex : e.kind.name? = some x) (hx : P x = true) : d = e := by
  let differ (a c : Tag) : Prop := ∀ y, a.kind.name? = some y → ∀ y', c.kind.name? = some y' →
    P y = true → P y' = true → y ≠ y'
  have hsymm : Std.Symm differ := ⟨fun a c hac y hy y' hy' hp hp' =>
    (hac y' hy' y hy hp' hp).symm⟩
  rw [temporaries_eq_declarators, List.Nodup, List.pairwise_filter, List.pairwise_filterMap] at hb
  have hpairs : b.declarators.Pairwise differ := hb
  by_contra hne
  exact hpairs.forall hd he hne x hdx x hex hx hx rfl

variable {t : Tree} {b : Branch}

/-- What stands in a `var` and has a name declares it. -/
theorem declares_of_var {f : Frame} {outer : List Frame} (ht : t.Holds [plug (f :: outer) c])
    (hf : f.tag.kind = .var) (hx : c.kind.name? = some x) :
    t.Declares c.id x ∧ c.tag ∈ (plug (f :: outer) c).declarators := by
  have hk : t.kind f.tag.id = f.tag.kind := ht.kind_frame
  refine ⟨⟨by rw [ht.shows.name?, hx], by simp [ht.parent_eq, hk, hf]⟩, ?_⟩
  refine declarators_plug (c := f.fill c) _ ?_ outer
  rw [Frame.fill, Branch.declarators, if_pos hf]
  exact List.mem_append_left _ (List.mem_map.mpr ⟨c, by simp, rfl⟩)

/-- A declarator stands in a `var`. -/
theorem exists_var_of_declares {d : NodeId} (ht : t.Holds [b]) (hd : d ∈ b.ids)
    (hx : t.Declares d x) : ∃ f outer c, b = plug (f :: outer) c ∧ c.id = d ∧
      f.tag.kind = .var ∧ c.kind.name? = some x := by
  obtain ⟨z, c, rfl, rfl⟩ := exists_plug_of_mem_ids hd
  obtain ⟨hname, hparent⟩ := hx
  rw [ht.parent_eq] at hparent
  rw [ht.shows.name?] at hname
  cases z with
  | nil => cases hparent
  | cons f outer =>
    have hk : t.kind f.tag.id = f.tag.kind := ht.kind_frame
    exact ⟨f, outer, c, rfl, rfl, by simpa [hk] using hparent, hname⟩

/-- What is declared in a program is among its declarations. -/
theorem mem_temporaries_iff (ht : t.Holds [b]) (hx : P x = true) :
    x ∈ b.temporaries P ↔ ∃ d ∈ b.ids, t.Declares d x := by
  rw [temporaries_eq_declarators, List.mem_filter, List.mem_filterMap]
  constructor
  · rintro ⟨⟨tag, htag, hname⟩, -⟩
    obtain ⟨f, outer, c, rfl, hf, rfl⟩ := exists_plug_of_mem_declarators htag
    exact ⟨c.id, (ids_plug _ c).mem_iff.mpr (List.mem_append_right _ c.id_mem_ids),
      (declares_of_var ht hf hname).1⟩
  · rintro ⟨d, hd, hdx⟩
    obtain ⟨f, outer, c, rfl, -, hf, hc⟩ := exists_var_of_declares ht hd hdx
    exact ⟨⟨c.tag, (declares_of_var ht hf hc).2, hc⟩, hx⟩

/-- In a program whose temporaries are declared once each, a declarator is the only one of its
name. -/
theorem declarator_unique (ht : t.Holds [b]) (hb : (b.temporaries P).Nodup) (hx : P x = true)
    {d e : NodeId} (hd : d ∈ b.ids) (he : e ∈ b.ids) (hdx : t.Declares d x) (hex : t.Declares e x) :
    e = d := by
  obtain ⟨f, outer, c, rfl, rfl, hf, hc⟩ := exists_var_of_declares ht hd hdx
  obtain ⟨g, around, a, hb', rfl, hg, ha⟩ := exists_var_of_declares ht he hex
  have hfirst := (declares_of_var ht hf hc).2
  have hsecond := (declares_of_var (hb' ▸ ht) hg ha).2
  rw [← hb'] at hsecond
  exact congrArg Tag.id (eq_of_declarators hb hsecond hfirst ha hc hx)

/-- A name that is known where it stands is declared by a statement that reaches it. -/
theorem exists_reaching {inner outer : List Frame} {tag : Tag}
    {before between behind : List Branch} {statement : Branch}
    (ht : t.Holds [plug (inner ++ ⟨tag, before ++ statement :: between, behind⟩ :: outer) c])
    (hlist : tag.kind.isStatementList = true) (hx : x ∈ statement.declares) :
    ∃ d ∈ (plug (inner ++ ⟨tag, before ++ statement :: between, behind⟩ :: outer) c).ids,
      t.Declares d x ∧ t.Reaches d c.id := by
  obtain ⟨own, cs⟩ := statement
  rw [Branch.declares] at hx
  split at hx
  · rename_i hvar
    obtain ⟨declarator, hmem, hname⟩ := List.mem_filterMap.mp hx
    obtain ⟨ls, rs, hcs⟩ := List.append_of_mem hmem
    obtain rfl : cs = ls ++ declarator :: rs := hcs
    have hother : plug (inner ++ ⟨tag, before ++ .node own (ls ++ declarator :: rs) :: between,
        behind⟩ :: outer) c = plug (⟨own, ls, rs⟩ :: ⟨tag, before, between ++ plug inner c :: behind⟩
          :: outer) declarator := by
      rw [plug_append_cons]
      simp [Frame.fill]
    have hdeclares := declares_of_var (hother ▸ ht) hvar hname
    have hlater := ht
    rw [plug_append_cons, ← plug_cons] at hlater
    refine ⟨declarator.id, ?_, hdeclares.1, tag.id, own.id, (plug inner c).id, before.map Branch.id,
      between.map Branch.id, behind.map Branch.id, ?_, ?_, ?_, ?_, ?_⟩
    · rw [hother]
      exact (ids_plug _ declarator).mem_iff.mpr (List.mem_append_right _ declarator.id_mem_ids)
    · have hk : t.kind tag.id = tag.kind := hlater.kind_frame
      rw [Tree.isStatementList, hk, hlist]
    · have hchildren := hlater.children_frame
      simpa using hchildren
    · have hk : t.kind own.id = own.kind := (hother ▸ ht).kind_frame
      rw [hk]
      exact hvar
    · have hchildren := (hother ▸ ht).children_frame
      rw [hchildren]
      simp
    · rw [Tree.isDescendantOrSelf, ht.ancestors]
      rcases List.eq_nil_or_concat' inner with rfl | ⟨z, f, rfl⟩
      · simp
      · simp [plug_append, Frame.fill]
  · cases hx

/-- A program whose temporaries are in scope and declared once each settles them. -/
theorem settles_of_scoped {constants : List String} (ht : t.Holds [b]) (hroot : b.id = Tree.root)
    (hfits : b.Fits loose .program) (hscoped : b.Scoped P p [] false)
    (hnodup : (b.temporaries P).Nodup)
    (hfunctions : b.All fun k => !k.isFunction || k.spells.all (!P ·))
    (hconstants : ∀ x ∈ constants, ∃ k, x = constantAt p k) : t.Settles P constants := by
  have hpreorder : t.preorder Tree.root = b.ids := by
    rw [← hroot]
    exact Tree.Holds.preorder (z := []) ht
  refine ⟨?_, ?_, ?_⟩
  · rw [hpreorder]
    intro n hn x hx hp
    have hunique : ∀ {d : NodeId}, d ∈ b.ids → t.Declares d x →
        ∀ e ∈ b.ids, t.Declares e x → e = d :=
      fun hd hdx e he hex => declarator_unique ht hnodup hp hd he hdx hex
    obtain ⟨z, c, rfl, rfl⟩ := exists_plug_of_mem_ids hn
    rw [ht.shows.name?] at hx
    rcases bareName?_or_declared hfits hx with hbare | ⟨f, outer, rfl, hf⟩
    · obtain ⟨K, d, hc, hvar, hplaces⟩ := exists_declared hscoped
      cases d with
      | true =>
        rcases hvar rfl with ⟨-, hfalse⟩ | ⟨f, outer, rfl, hf⟩
        · cases hfalse
        · have hdeclares := (declares_of_var ht hf hx).1
          exact ⟨c.id, hn, hdeclares, hunique hn hdeclares, .inl rfl⟩
      | false =>
        obtain ⟨own, cs⟩ := c
        have hknown := (scoped_node.mp hc).1 rfl x hbare hp
        obtain ⟨inner, tag, before, statement, between, behind, outer, rfl, hlist, hdeclared⟩ :=
          (hplaces x hknown).resolve_left List.not_mem_nil
        obtain ⟨d, hd, hdeclares, hreaches⟩ := exists_reaching ht hlist hdeclared
        exact ⟨d, hd, hdeclares, hunique hd hdeclares, .inr hreaches⟩
    · have hdeclares := (declares_of_var ht hf hx).1
      exact ⟨c.id, hn, hdeclares, hunique hn hdeclares, .inl rfl⟩
  · rw [hpreorder]
    intro n hn hf x hx
    have hkind := (Tree.Holds.all_iff (z := []) ht).mp hfunctions n hn
    rw [hf] at hkind
    simpa using List.all_eq_true.mp hkind x hx
  · rw [hpreorder]
    intro n hn ha c hc x hx hname
    obtain ⟨k, rfl⟩ := hconstants x hx
    obtain ⟨z, ⟨tag, cs⟩, rfl, rfl⟩ := exists_plug_of_mem_ids hn
    rw [ht.shows.kind] at ha
    obtain ⟨K, d, hin, -⟩ := exists_declared hscoped
    have htarget := (scoped_node.mp hin).2.1.target ha
    rw [Tree.firstChild, ht.shows.children] at hc
    cases cs with
    | nil => cases hc
    | cons first rest =>
      obtain rfl : first.id = c := Option.some.inj hc
      rw [(ht.shows.child first List.mem_cons_self).name?] at hname
      have hplug : plug z (.node tag (first :: rest)) = plug (⟨tag, [], rest⟩ :: z) first := rfl
      rcases bareName?_or_declared (hplug ▸ hfits) hname with hbare | ⟨f, outer, he, hf⟩
      · exact htarget first rfl k hbare
      · obtain ⟨rfl, -⟩ := List.cons.inj he
        rw [Branch.kind_node, show tag.kind = .var from hf] at ha
        cases ha

end Places

/-- The work on calls makes no functions. -/
theorem covers_functions :
    Covers (fun k => !k.isFunction || k.spells.all (!P ·)) p where
  constant _ := rfl
  value _ := rfl
  made k hk := by
    cases k with
    | function x params => simp at hk
    | _ => rfl
  binary _ := rfl

section Decomposed

variable {settings : Settings} {file text : String} {t : Tree} {w : Workspace} {b b' : Branch}
  {s' : Supply}

/-- In a program that spells no names of a sort, the work on calls declares such names once each. -/
theorem Decomposed.widens (h : Decomposed settings file text t w b b' s')
    (hP : Reserves P settings.tempPrefix)
    (hfree : ∀ x ∈ t.names, P x = false) :
    (b.All fun k => k.spells.all (!P ·)) ∧
      Widens P settings.tempPrefix b ⟨t.size, 0, 0, [], settings.tempPrefix⟩ b' s' ∧
      (b'.temporaries P).Nodup := by
  have hall : b.All fun k => k.spells.all (!P ·) := by
    refine (Tree.Holds.all_iff (z := []) h.before).mpr fun n hn => ?_
    rw [← Tree.Holds.preorder (z := []) h.before, h.root] at hn
    exact List.all_eq_true.mpr fun x hx => by
      rw [hfree x (List.mem_flatMap.mpr ⟨n, hn, hx⟩)]
      rfl
  have hstart : b.temporaries P = [] ∧ b.Scoped P settings.tempPrefix [] false :=
    scoped_of_spells hP hall
  obtain ⟨hnone, hscoped⟩ := hstart
  have hwidens := h.run.widens hP h.proper.fits.loose ⟨rfl, by simp⟩ hscoped
  obtain ⟨ns, hns, hperm⟩ := hwidens.drawn
  rw [hnone, List.append_nil] at hperm
  exact ⟨hall, hwidens, hperm.nodup_iff.mpr hns.nodup⟩

/-- In a program that spells no names of a sort, the work on calls settles such names. -/
theorem Decomposed.settles (h : Decomposed settings file text t w b b' s')
    (hP : Reserves P settings.tempPrefix)
    (hfree : ∀ x ∈ t.names, P x = false) : w.tree.Settles P w.constants := by
  obtain ⟨hall, hwidens, hnodup⟩ := h.widens hP hfree
  refine settles_of_scoped h.after.holds h.root' (h.run.fits h.proper.fits.loose) hwidens.inScope
    hnodup (h.run.all covers_functions ?_) ?_
  · intro k hk
    have hspells : k.1.spells.all (!P ·) = true := hall k hk
    simp [hspells]
  · rw [h.after.constants]
    exact hwidens.named.constants

end Decomposed

/-- Where no variable, function or parameter of a text has a name with the prefix, the temporaries
of the program that it is decomposed into are declared by one `var` each and used only in statements
behind that, and those that are known to be assigned once are never assigned again. -/
theorem decompose_settles_temporaries (settings : Settings) {file text : String} {t : Tree}
    (h : readTree file text = .ok t)
    (hfree : ∀ x ∈ t.names, isReserved settings.tempPrefix x = false) :
    ∃ (found : List CallSite × List Warning) (w : Workspace),
      (t.exposeCalls settings file).run (.ofTree t settings.tempPrefix) = .ok found w ∧
      decompose settings file text = .ok ⟨w.tree.sourceLines, found.1, found.2, w.changes⟩ ∧
      w.tree.Settles (isReserved settings.tempPrefix) w.constants ∧
      ∀ x ∈ w.constants, ∃ k : Nat, x = settings.tempPrefix ++ "const_" ++ toString k := by
  obtain ⟨w, b, b', s', hd⟩ := decomposed_of_readTree settings h
  obtain ⟨found, hdone, hdecompose⟩ := hd.done
  refine ⟨found, w, hdone, hdecompose, hd.settles reserves_isReserved hfree, ?_⟩
  rw [hd.after.constants]
  exact (hd.widens reserves_isReserved hfree).2.1.named.constants

theorem decompose_settles_temporaries_of_choice :
    ∃ t, readTree "s.js" "x += y++ + (a ? f(x) : b) * o.g(x, h());" = .ok t ∧
      (∀ x ∈ t.names, isReserved Settings.standard.tempPrefix x = false) ∧
      ∃ (found : List CallSite × List Warning) (w : Workspace),
        (t.exposeCalls Settings.standard "s.js").run (.ofTree t Settings.standard.tempPrefix) =
          .ok found w ∧
        w.tree.Settles (isReserved Settings.standard.tempPrefix) w.constants := by
  have hrun : (readTree "s.js" "x += y++ + (a ? f(x) : b) * o.g(x, h());").toOption.any (fun t =>
      ∀ x ∈ t.names, isReserved Settings.standard.tempPrefix x = false) = true := by
    cbv
  obtain ⟨t, ht, hfree⟩ := exists_of_toOption_any hrun
  obtain ⟨found, w, hdone, -, hsettles, -⟩ := decompose_settles_temporaries Settings.standard ht hfree
  exact ⟨t, ht, hfree, found, w, hdone, hsettles⟩

end Hoist
