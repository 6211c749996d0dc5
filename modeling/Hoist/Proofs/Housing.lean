import Hoist.Proofs.Drawing
import Hoist.Proofs.Exposed
import Hoist.Proofs.Moving
import Hoist.Proofs.Remaining

namespace Hoist

variable {size : Nat} {n p q : NodeId} {o l m : Bool} {K : List String} {a b c d e x : Branch}
  {f : Frame} {z : List Frame} {ds : List Branch} {s : Site}

section Around

theorem houses_fill (h : ∀ l, b.Houses l o p q) : (f.fill b).Houses l o p q :=
  Branch.houses_node.mpr (.inr ⟨b, by simp, h _⟩)

theorem houses_plug (h : ∀ l, b.Houses l o p q) : (plug z b).Houses l o p q := by
  induction z generalizing b with
  | nil => exact h l
  | cons f z ih => exact ih fun _ => houses_fill h

/-- What is exchanged in a program for something with the same direct calls and no other rooms leaves
the rooms around it. -/
theorem houses_exchange (hd : c.direct = b.direct) (h : ∀ l, c.Houses l o p q → b.Houses l o p q)
    (hc : (plug z c).Houses l o p q) : (plug z b).Houses l o p q := by
  induction z generalizing b c with
  | nil => exact h l hc
  | cons f z ih =>
    refine ih ?_ (fun l hc => ?_) hc
    · rw [Frame.fill, Frame.fill, Branch.direct, Branch.direct, List.flatMap_append,
        List.flatMap_append, List.flatMap_cons, List.flatMap_cons, hd]
    · have hpart : ∀ {r}, (∃ g ∈ f.left ++ c :: f.right, r ∈ g.direct) →
          ∃ g ∈ f.left ++ b :: f.right, r ∈ g.direct := by
        rintro r ⟨g, hg, hr⟩
        rcases List.mem_append.mp hg with hg | hg
        · exact ⟨g, by simp [hg], hr⟩
        · rcases List.mem_cons.mp hg with rfl | hg
          · exact ⟨b, by simp, hd ▸ hr⟩
          · exact ⟨g, by simp [hg], hr⟩
      rw [Frame.fill, Branch.houses_node] at hc ⊢
      rcases hc with ⟨hroom, hp, hq⟩ | ⟨g, hg, hin⟩
      · exact .inl ⟨hroom, hpart hp, hpart hq⟩
      · rcases List.mem_append.mp hg with hg | hg
        · exact .inr ⟨g, by simp [hg], hin⟩
        · rcases List.mem_cons.mp hg with rfl | hg
          · exact .inr ⟨b, by simp, h _ hin⟩
          · exact .inr ⟨g, by simp [hg], hin⟩

theorem houses_list {tag : Tag} {cs : List Branch} (h : tag.kind.isStatementList = true) :
    (Branch.node tag cs).Houses l o p q ↔ ∃ c ∈ cs, c.Houses true o p q := by
  rw [Branch.houses_node]
  cases hk : tag.kind <;> rw [hk] at h <;> first | (cases h; done) | simp [Kind.room?]

theorem direct_list {tag : Tag} {cs : List Branch} (h : tag.kind.isStatementList = true) :
    (Branch.node tag cs).direct = [] := by
  refine Branch.direct_eq_nil ?_
  cases hk : tag.kind <;> rw [hk] at h <;> first | (cases h; done) | rfl

theorem found_list {tag : Tag} {cs : List Branch} (h : tag.kind.isStatementList = true) :
    n ∈ (Branch.node tag cs).found (freeing K) m ↔ ∃ c ∈ cs, n ∈ c.found (freeing K) true := by
  have hcall : (Branch.node tag cs).isPlainCall = false := by
    rw [Branch.isPlainCall, decide_eq_false, Bool.false_and]
    intro hk
    rw [hk] at h
    cases h
  rw [found_node, hcall, mem_foundIn]
  constructor
  · rintro (⟨-, hf, -⟩ | ⟨ls, c, rs, rfl, hn⟩)
    · cases hf
    · rw [freeing_list h] at hn
      exact ⟨c, by simp, hn⟩
  · rintro ⟨c, hc, hn⟩
    obtain ⟨ls, rs, rfl⟩ := List.append_of_mem hc
    exact .inr ⟨ls, c, rs, rfl, by rwa [freeing_list h]⟩

/-- What is so of one of the statements in the place of a statement is so of that statement or of one
beside it. -/
theorem Spot.exists_beside {p : Spot} {P : Branch → Prop} (h : ∀ d ∈ ds ++ [c], P d → P a)
    (hd : ∃ d ∈ p.before ++ ds ++ c :: p.behind, P d) :
    ∃ d ∈ p.before ++ [] ++ a :: p.behind, P d := by
  obtain ⟨d, hd, hin⟩ := hd
  simp only [List.append_nil, List.mem_append, List.mem_cons] at hd ⊢
  rcases hd with (hd | hd) | rfl | hd
  · exact ⟨d, .inl hd, hin⟩
  · exact ⟨a, .inr (.inl rfl), h d (by simp [hd]) hin⟩
  · exact ⟨a, .inr (.inl rfl), h d (by simp) hin⟩
  · exact ⟨d, .inr (.inr hd), hin⟩

/-- Statements that take the place of a statement have no rooms that it had not. -/
theorem Spot.houses {p : Spot} (hp : p.tag.kind.isStatementList = true) {i j : NodeId}
    (h : ∀ d ∈ ds ++ [c], d.Houses true o i j → a.Houses true o i j)
    (hc : (plug (p.around ds) c).Houses l o i j) : (plug (p.around []) a).Houses l o i j := by
  refine houses_exchange (z := p.outer) (b := Frame.fill ⟨p.tag, p.before ++ [], p.behind⟩ a)
    (c := Frame.fill ⟨p.tag, p.before ++ ds, p.behind⟩ c)
    ((direct_list hp).trans (direct_list hp).symm) (fun l hc => ?_) hc
  rw [Frame.fill, houses_list hp] at hc ⊢
  exact Spot.exists_beside h hc

/-- The rooms of a statement are rooms of the program. -/
theorem Spot.houses_around {p : Spot} (hp : p.tag.kind.isStatementList = true) {i j : NodeId}
    (h : a.Houses true o i j) : (plug (p.around []) a).Houses l o i j :=
  houses_plug (z := p.outer) (b := Frame.fill ⟨p.tag, p.before ++ [], p.behind⟩ a) fun _ =>
    (houses_list hp).mpr ⟨a, by simp, h⟩

/-- What can be altered holds back what stands behind it. -/
theorem shuts_alterable (ha : f.tag.kind.isAround = true) (hc : c.isAlterable K = true)
    (ht : ∀ form, b.Target form → c.kind.isMember = true) (hf : f.Followed b) :
    f.Shuts (freeing K) c := by
  intro m ls r rs he
  have hregular := hf ls r rs he
  obtain ⟨tag, left, right⟩ := f
  rw [freeing_around ha, Bool.and_eq_false_iff]
  refine .inr ?_
  rw [Bool.not_eq_false', Frame.holdsBack]
  have hany : (left ++ c :: ls).any (Branch.isAlterable K) = true :=
    List.any_eq_true.mpr ⟨c, by simp, hc⟩
  have hassignment := hregular.assignment
  dsimp only at hassignment ⊢
  cases left with
  | nil =>
    rw [List.nil_append] at hassignment hany ⊢
    dsimp only
    have hmember : tag.kind = .assign ∨ (∃ op, tag.kind = .assignOp op) →
        c.kind.isMember = true := fun hk => by
      obtain ⟨target, form, hl, -, hform⟩ := hassignment hk (by simp)
      obtain ⟨rfl, -⟩ := List.cons.inj hl
      exact ht form hform
    cases hk : tag.kind
    case conditional | and_ | or_ => rfl
    case assign => simp [hmember (.inl hk), hc]
    case assignOp op => simp [Branch.readMustPrecede, hmember (.inr ⟨op, hk⟩)]
    all_goals exact hany
  | cons first rest =>
    rw [List.cons_append] at hassignment hany ⊢
    dsimp only
    have hnot : ¬(tag.kind = .assign ∨ ∃ op, tag.kind = .assignOp op) := fun hk => by
      obtain ⟨target, form, hl, -⟩ := hassignment hk (by simp)
      simp at hl
    cases hk : tag.kind
    case conditional | and_ | or_ => rfl
    case assign => exact absurd (.inl hk) hnot
    case assignOp op => exact absurd (.inr ⟨op, hk⟩) hnot
    all_goals exact hany

/-- What is told to what stands behind a branch in a node that is no expression does not depend on
the branch. -/
theorem freeing_congr_left {tag : Tag} {left left' : List Branch} (ha : tag.kind.isAround = false)
    (hl : left ≠ []) (hl' : left' ≠ []) : freeing K m tag left = freeing K m tag left' := by
  rw [freeing, freeing, List.isEmpty_eq_false_iff.mpr hl, List.isEmpty_eq_false_iff.mpr hl']
  cases hk : tag.kind <;> rw [hk] at ha <;> first | rfl | simp [ha]

theorem isAlterable_plug (h : b.isAlterable K = true) : (plug z b).isAlterable K = true := by
  by_contra hp
  rw [Branch.isAlterable_of_plug (eq_false_of_ne_true hp)] at h
  cases h

/-- A target that holds something is a member. -/
theorem isMember_of_target {form : TargetForm} (h : b.Target form) (hb : b.children ≠ []) :
    b.kind.isMember = true := by
  cases h with
  | name h => exact absurd rfl hb
  | property h => rw [Branch.kind_node, h]; rfl
  | element h => rw [Branch.kind_node, h]; rfl

/-- What is found after something that can be altered was exchanged for something else in a program
is found before, if that goes for what was exchanged. -/
theorem found_exchange (hf : ∀ z₁ f z₂, z = z₁ ++ f :: z₂ → f.Followed (plug z₁ b))
    (hc : c.isAlterable K = true)
    (hm : c.kind.isMember = b.kind.isMember) (ht : ∀ form, b.Target form → c.kind.isMember = true)
    (h : ∀ m, n ∈ c.found (freeing K) m → n ∈ b.found (freeing K) m)
    (hn : n ∈ (plug z c).found (freeing K) m) : n ∈ (plug z b).found (freeing K) m := by
  induction z generalizing b c with
  | nil => exact h m hn
  | cons f z ih =>
    have hfollowed : f.Followed b := hf [] f z rfl
    have hrest : ∀ z₁ g z₂, z = z₁ ++ g :: z₂ → g.Followed (plug z₁ (f.fill b)) := by
      rintro z₁ g z₂ rfl
      exact hf (f :: z₁) g z₂ rfl
    refine ih (c := f.fill c) hrest (isAlterable_plug (z := [f]) hc) rfl (fun form hform => ?_)
      (fun m hn => ?_) hn
    · exact isMember_of_target (b := f.fill b) hform (by simp)
    · rw [mem_found_fill] at hn ⊢
      rcases hn with ⟨hm', hcall, rfl⟩ | ⟨ls, d, rs, he, hn⟩ | hn | ⟨ls, d, rs, he, hn⟩
      · exact .inl ⟨hm', (isPlainCall_fill hm f).symm.trans hcall, rfl⟩
      · exact .inr (.inl ⟨ls, d, rs, he, hn⟩)
      · exact .inr (.inr (.inl (h _ hn)))
      · refine .inr (.inr (.inr ⟨ls, d, rs, he, ?_⟩))
        cases ha : f.tag.kind.isAround with
        | true =>
          rw [shuts_alterable ha hc ht hfollowed m ls d rs he] at hn
          exact found_mono (freeing_le fun _ hx => hx) (fun hf => by cases hf) hn
        | false =>
          have htold : freeing K m f.tag (f.left ++ b :: ls) = freeing K m f.tag (f.left ++ c :: ls) :=
            freeing_congr_left ha (by simp) (by simp)
          rwa [htold]

/-- In statements that take the place of a statement nothing is found that was not, where one of them
can be altered and that goes for each of them. -/
theorem Spot.found {p : Spot} (hp : p.tag.kind.isStatementList = true)
    (hb : (plug (p.around []) a).Fits true .program)
    (hd : ∃ d ∈ ds ++ [c], d.isAlterable K = true)
    (h : ∀ d ∈ ds ++ [c], n ∈ d.found (freeing K) true → n ∈ a.found (freeing K) true)
    (hn : n ∈ (plug (p.around ds) c).found (freeing K) m) :
    n ∈ (plug (p.around []) a).found (freeing K) m := by
  have hmember : p.tag.kind.isMember = false := by
    cases hk : p.tag.kind <;> rw [hk] at hp <;> first | rfl | cases hp
  refine found_exchange (z := p.outer) (b := Frame.fill ⟨p.tag, p.before ++ [], p.behind⟩ a)
    (c := Frame.fill ⟨p.tag, p.before ++ ds, p.behind⟩ c) (fun z₁ f z₂ he => ?_) ?_ rfl
    (fun form hform => ?_) (fun m hn => ?_) hn
  · have hwhole : (plug (z₁ ++ f :: z₂)
        (Frame.fill ⟨p.tag, p.before ++ [], p.behind⟩ a)).Fits true .program := by rwa [← he]
    exact followed_of_fits z₁ hwhole
  · obtain ⟨d, hd, halterable⟩ := hd
    have hmem : d ∈ p.before ++ ds ++ c :: p.behind := by
      rcases List.mem_append.mp hd with hd | hd
      · simp [hd]
      · simp [List.mem_singleton.mp hd]
    obtain ⟨ls, rs, he⟩ := List.append_of_mem hmem
    rw [Frame.fill, he]
    exact isAlterable_plug (z := [⟨p.tag, ls, rs⟩]) halterable
  · have hm := isMember_of_target hform (by simp)
    rw [Frame.kind_fill, hmember] at hm
    cases hm
  · rw [Frame.fill, found_list hp] at hn ⊢
    exact Spot.exists_beside h hn

/-- What is found in a declaration is free in its value. -/
theorem of_found_declaring {first : NodeId} {y : String}
    (h : n ∈ (Branch.declaring first y c).found (freeing K) m) : n ∈ c.found (freeing K) true := by
  rcases found_node.mp h with ⟨-, hcall, -⟩ | h
  · cases hcall
  · rw [Branch.foundIn, Branch.foundIn, List.append_nil] at h
    rcases found_node.mp h with ⟨-, hcall, -⟩ | h
    · cases hcall
    · rw [Branch.foundIn, Branch.foundIn, List.append_nil] at h
      exact found_mono (freeing_le fun _ hx => hx) (fun _ => rfl) h

end Around

section Statements

/-- Labels around a statement change nothing. -/
theorem labels_iff {labels : List Frame} (hl : ∀ f ∈ labels, ∃ x, f.tag.kind = .label x)
    (hr : ∀ f ∈ labels, f.Regular) :
    ((plug labels b).Houses true o p q ↔ b.Houses true o p q) ∧
      (n ∈ (plug labels b).found (freeing K) true ↔ n ∈ b.found (freeing K) true) := by
  induction labels generalizing b with
  | nil => exact ⟨.rfl, .rfl⟩
  | cons f labels ih =>
    obtain ⟨⟨x, hx⟩, hl⟩ := List.forall_mem_cons.mp hl
    obtain ⟨hf, hr⟩ := List.forall_mem_cons.mp hr
    obtain ⟨hleft, hright⟩ := hf.alone (.inr ⟨x, hx⟩)
    have hfill : f.fill b = .node f.tag [b] := by rw [Frame.fill, hleft, hright, List.nil_append]
    refine ⟨(ih hl hr).1.trans ?_, (ih hl hr).2.trans ?_⟩
    · rw [hfill, Branch.houses_node, hx]
      simp [Kind.room?]
    · rw [hfill, Branch.found, Branch.foundIn, Branch.foundIn, freeing_label hx, Branch.isPlainCall,
        hx]
      simp

/-- A statement that is derived from another, with an expression, where new nodes are named from a
size on: its rooms were rooms before, and what is free in it was, or is a direct call of the
expression. -/
structure Derived (size : Nat) (e a d : Branch) : Prop where
  houses {o : Bool} {p q : NodeId} : p < size → q < size → d.Houses true o p q →
    a.Houses true o p q
  found {K : List String} {n : NodeId} : n < size → n ∈ d.found (freeing K) true →
    n ∈ e.direct ∨ n ∈ a.found (freeing K) true

/-- An expression is the first of a statement before which something can be declared. -/
structure Heads (e a : Branch) : Prop where
  direct {p q : NodeId} : p ∈ e.direct → q ∈ e.direct → a.Houses true true p q
  houses {o : Bool} {p q : NodeId} : e.Houses true o p q → a.Houses true o p q
  found {K : List String} {n : NodeId} : n ∈ e.found (freeing K) false → n ∈ a.found (freeing K) true

theorem Kind.room?_of_root {k : Kind} (h : k.isRoot = true ∨ k = .var) : k.room? true = some true := by
  rcases h with h | rfl
  · cases k <;> first | rfl | cases h
  · rfl

theorem Kind.ne_for_of_root {k : Kind} (h : k.isRoot = true ∨ k = .var) : (k ≠ .for_) := by
  rintro rfl
  rcases h with h | h <;> cases h

theorem Site.Rooted.heads (hs : s.Rooted) (hr : ∀ f ∈ s.labels, f.Regular) (e : Branch) :
    Heads e (plug s.base e) where
  direct hp hq := by
    refine (labels_iff (K := []) (n := 0) hs.labels hr).1.mpr (Branch.houses_node.mpr (.inl ?_))
    exact ⟨Kind.room?_of_root hs.root, ⟨e, by simp, hp⟩, ⟨e, by simp, hq⟩⟩
  houses h := by
    refine (labels_iff (K := []) (n := 0) hs.labels hr).1.mpr (Branch.houses_node.mpr (.inr ?_))
    rw [decide_eq_true (Kind.ne_for_of_root hs.root)]
    exact ⟨e, by simp, h⟩
  found h := found_plug (found_mono (freeing_le fun _ hx => hx) (fun hf => by cases hf) h)

/-- What is free in a part of what is made of an expression is a direct call of the expression or free
in its statement. -/
theorem Heads.found_of_draws (h : Heads e a) (hn : n < size) (hc : Branch.Draws size c e)
    (hin : n ∈ c.found (freeing K) m) : n ∈ e.direct ∨ n ∈ a.found (freeing K) true :=
  (direct_or_found hin).imp (hc.keeps hn (spread_direct n)) fun hin =>
    h.found (hc.keeps hn (spread_found K n) hin)

theorem Branch.Draws.direct (hc : Branch.Draws size c e) (hn : n < size) (h : n ∈ c.direct) :
    n ∈ e.direct := hc.keeps hn (spread_direct n) h

theorem Branch.Draws.houses (hc : Branch.Draws size c e) (hp : p < size)
    (h : c.Houses true o p q) : e.Houses true o p q := hc.keeps hp (spread_houses o p q) h

/-- A new statement is derived when its parts are made of the expression or are blocks of derived
statements. -/
theorem derived_node (h : Heads e a) {tag : Tag} {cs : List Branch}
    (hk : tag.kind.isRoot = true ∨ tag.kind = .var) (hcs : ∀ c ∈ cs, Branch.Draws size c e ∨
      ∃ part ds, c = .node part ds ∧ part.kind = .block ∧ ∀ d ∈ ds, Derived size e a d) :
    Derived size e a (.node tag cs) where
  houses {o p q} hp hq hin := by
    have hdirect : ∀ {r}, r < size → (∃ c ∈ cs, r ∈ c.direct) → r ∈ e.direct := by
      rintro r hr ⟨c, hc, hrc⟩
      rcases hcs c hc with hdraws | ⟨part, ds, rfl, hpart, -⟩
      · exact hdraws.direct hr hrc
      · rw [direct_list (by rw [hpart]; rfl)] at hrc
        cases hrc
    rcases Branch.houses_node.mp hin with ⟨hroom, hpc, hqc⟩ | ⟨c, hc, hin⟩
    · rw [Kind.room?_of_root hk] at hroom
      obtain rfl := Option.some.inj hroom
      exact h.direct (hdirect hp hpc) (hdirect hq hqc)
    · rw [decide_eq_true (Kind.ne_for_of_root hk)] at hin
      rcases hcs c hc with hdraws | ⟨part, ds, rfl, hpart, hds⟩
      · exact h.houses (hdraws.houses hp hin)
      · obtain ⟨d, hd, hin⟩ := (houses_list (by rw [hpart]; rfl)).mp hin
        exact (hds d hd).houses hp hq hin
  found {K n} hn hin := by
    have hcall : (Branch.node tag cs).isPlainCall = false := by
      rw [Branch.isPlainCall, decide_eq_false, Bool.false_and]
      intro he
      rw [he] at hk
      rcases hk with hk | hk <;> cases hk
    rcases found_node.mp hin with ⟨-, hf, -⟩ | hin
    · rw [hcall] at hf
      cases hf
    · obtain ⟨ls, c, rs, he, hin⟩ := mem_foundIn.mp hin
      rcases hcs c (by simp [he]) with hdraws | ⟨part, ds, rfl, hpart, hds⟩
      · exact h.found_of_draws hn hdraws hin
      · obtain ⟨d, hd, hin⟩ := (found_list (by rw [hpart]; rfl)).mp hin
        exact (hds d hd).found hn hin

theorem derived_declaring (h : Heads e a) (hc : Branch.Draws size c e) (first : NodeId)
    (x : String) : Derived size e a (.declaring first x c) :=
  derived_node h (.inr rfl) (List.forall_mem_singleton.mpr (.inl
    (Branch.draws_whole rfl (.inl (by simp)) (List.forall_mem_singleton.mpr hc))))

/-- The statement with another expression is derived when the expression is made of the old one. -/
theorem derived_base (hs : s.Rooted) (hr : ∀ f ∈ s.labels, f.Regular) (hc : Branch.Draws size c e) :
    Derived size e (plug s.base e) (plug s.base c) where
  houses {o p q} hp hq hin := by
    have hlabels := fun c => labels_iff (K := []) (n := 0) (b := Frame.fill ⟨s.root, [], s.right⟩ c)
      (o := o) (p := p) (q := q) hs.labels hr
    have hdirect : ∀ {r}, r < size → (∃ d ∈ c :: s.right, r ∈ d.direct) →
        ∃ d ∈ e :: s.right, r ∈ d.direct := by
      rintro r hr ⟨d, hd, hrd⟩
      rcases List.mem_cons.mp hd with rfl | hd
      · exact ⟨e, List.mem_cons_self, hc.direct hr hrd⟩
      · exact ⟨d, List.mem_cons_of_mem _ hd, hrd⟩
    refine (hlabels e).1.mpr (Branch.houses_node.mpr ?_)
    rcases Branch.houses_node.mp ((hlabels c).1.mp hin) with ⟨hroom, hpc, hqc⟩ | ⟨d, hd, hpart⟩
    · exact .inl ⟨hroom, hdirect hp hpc, hdirect hq hqc⟩
    · rw [decide_eq_true (Kind.ne_for_of_root hs.root)] at hpart ⊢
      rcases List.mem_cons.mp hd with rfl | hd
      · exact .inr ⟨e, List.mem_cons_self, hc.houses hp hpart⟩
      · exact .inr ⟨d, List.mem_cons_of_mem _ hd, hpart⟩
  found {K n} hn hin := by
    have hlabels := fun c => labels_iff (K := K) (n := n) (b := Frame.fill ⟨s.root, [], s.right⟩ c)
      (o := true) (p := 0) (q := 0) hs.labels hr
    rcases mem_found_fill.mp ((hlabels c).2.mp hin) with ⟨-, hcall, -⟩ | ⟨ls, d, rs, he, -⟩ | hin |
      ⟨ls, d, rs, he, hin⟩
    · rw [isPlainCall_base hs (f := ⟨s.root, [], s.right⟩) List.mem_cons_self] at hcall
      cases hcall
    · cases ls <;> cases he
    · exact (hs.heads hr e).found_of_draws hn hc hin
    · refine .inr ((hlabels e).2.mpr (mem_found_fill.mpr (.inr (.inr (.inr ⟨ls, d, rs, he, ?_⟩)))))
      have htold : ∀ c, freeing K true s.root ([] ++ c :: ls) = false := fun c => by
        rw [freeing_root hs.root, List.nil_append]
        rfl
      rwa [htold e, ← htold c]

theorem Derived.labelled (h : Derived size e a d) {labels : List Frame}
    (hl : ∀ f ∈ labels, ∃ x, f.tag.kind = .label x) (hr : ∀ f ∈ labels, f.Regular) :
    Derived size e a (plug labels d) where
  houses hp hq hin := h.houses hp hq ((labels_iff (K := []) (n := 0) hl hr).1.mp hin)
  found hn hin := h.found hn ((labels_iff (o := true) (p := 0) (q := 0) hl hr).2.mp hin)

theorem draws_resulting {result : Option String} {i : Nat} {span : Span}
    (h : Branch.Draws size c e) : Branch.Draws size (c.resulting i result span).1 e := by
  cases result with
  | none => exact h
  | some x =>
    exact Branch.draws_whole rfl (.inl (by simp)) (List.forall_mem_cons.mpr
      ⟨Branch.draws_madeName _ _ _ _, List.forall_mem_singleton.mpr h⟩)

/-- The `if` of a conditional is derived when its operands are made of the expression. -/
theorem derived_choosing (h : Heads e a) {op : ConditionalOp} {operands : List Branch} {i : Nat}
    {result : Option String} {span : Span} (hl : operands.length = op.operands)
    (hc : ∀ c ∈ operands, Branch.Draws size c e) :
    Derived size e a (Branch.choosing i result span op operands).1 := by
  have hblock : ∀ {c : Branch} {j k : Nat}, Branch.Draws size c e → ∃ part ds,
      Branch.made k .block span [(c.resultStatement j result span).1] = .node part ds ∧
        part.kind = .block ∧ ∀ d ∈ ds, Derived size e a d := fun hc =>
    ⟨_, _, rfl, rfl, List.forall_mem_singleton.mpr (derived_node h (.inl rfl)
      (List.forall_mem_singleton.mpr (.inl (draws_resulting hc))))⟩
  cases op with
  | choice =>
    obtain ⟨condition, first, second, rfl⟩ := List.length_eq_three.mp hl
    simp only [List.forall_mem_cons] at hc
    obtain ⟨hcondition, hfirst, hsecond, -⟩ := hc
    exact derived_node h (.inl rfl) (List.forall_mem_cons.mpr ⟨.inl hcondition,
      List.forall_mem_cons.mpr ⟨.inr (hblock hfirst),
        List.forall_mem_singleton.mpr (.inr (hblock hsecond))⟩⟩)
  | and_ =>
    obtain ⟨left, right, rfl⟩ := List.length_eq_two.mp hl
    simp only [List.forall_mem_cons] at hc
    obtain ⟨hleft, hright, -⟩ := hc
    exact derived_node h (.inl rfl) (List.forall_mem_cons.mpr ⟨.inl (draws_resulting hleft),
      List.forall_mem_singleton.mpr (.inr (hblock hright))⟩)
  | or_ =>
    obtain ⟨left, right, rfl⟩ := List.length_eq_two.mp hl
    simp only [List.forall_mem_cons] at hc
    obtain ⟨hleft, hright, -⟩ := hc
    exact derived_node h (.inl rfl) (List.forall_mem_cons.mpr ⟨.inl (draws_resulting hleft),
      List.forall_mem_cons.mpr ⟨.inr ⟨_, _, rfl, rfl, by simp⟩,
        List.forall_mem_singleton.mpr (.inr (hblock hright))⟩⟩)

end Statements

section Turn

variable {s s' : Supply} {b' : Branch} {moved : Bool}

/-- What is taken out of a statement, and what is left of it around something that is made of its
expression, is derived from it. -/
theorem Site.Rooted.derived_exposed {site : Site} (hs : site.Rooted)
    (hlabels : ∀ f ∈ site.labels, f.Regular) (hinner : ∀ f ∈ site.inner, f.Regular)
    (hc : Branch.Draws s.size c b) :
    ∀ d ∈ ((Pass.start s).exposeFrames site.inner).2.taken ++
      [plug site.base (plug ((Pass.start s).exposeFrames site.inner).1 c)],
      Derived s.size (plug site.inner b) (plug site.base (plug site.inner b)) d := by
  obtain ⟨hrest, htaken⟩ := (Pass.start s).exposeFrames_draws hs.inner hinner (Nat.le_refl s.size) hc
  intro d hd
  rcases List.mem_append.mp hd with hd | hd
  · rcases htaken d hd with hd | ⟨first, name, v, rfl, hv⟩
    · cases hd
    · exact derived_declaring (hs.heads hlabels _) hv first name
  · rw [List.mem_singleton.mp hd]
    exact derived_base hs hlabels hrest

/-- What is put in front of a statement where a conditional in it is decided, and what is left of the
statement, is derived from it. -/
theorem Site.Rooted.derived_decided {site : Site} {f : Frame} (hs : site.Rooted)
    (hlabels : ∀ f ∈ site.labels, f.Regular) (hinner : ∀ f ∈ site.inner, f.Regular)
    (hf : f.tag.kind.isAround = true) (hown : f.Regular) (hsometimes : f.isSometimes = true) (x : Branch) :
    let u := (site.exposed s).2
    let choice := f.choosing u.size (some u.valueName) x
    ∀ d ∈ (((Pass.start s).exposeFrames site.inner).2.taken ++
        [.made (choice.2 + 1) .var f.tag.span [.madeName choice.2 u.valueName f.tag.span], choice.1]) ++
      [plug site.base (plug ((Pass.start s).exposeFrames site.inner).1
        (.madeName (choice.2 + 2) u.valueName f.tag.span))],
      Derived s.size (plug site.inner (f.fill x)) (plug site.base (plug site.inner (f.fill x))) d := by
  intro u choice d hd
  obtain ⟨-, hlen⟩ := Step.operands_of_regular hown hsometimes
  have hhead := hs.heads hlabels (plug site.inner (f.fill x))
  have hrest := hs.derived_exposed (s := s) hlabels hinner
    (Branch.draws_madeName (choice.2 + 2) u.valueName f.tag.span (f.fill x))
  simp only [List.mem_append, List.mem_cons] at hd hrest
  rcases hd with (hd | rfl | rfl | hd) | rfl | hd
  · exact hrest d (.inl hd)
  · exact derived_node hhead (.inr rfl) (List.forall_mem_singleton.mpr
      (.inl (Branch.draws_madeName _ _ _ _)))
  · exact derived_choosing hhead (hlen _) fun c hc =>
      (Branch.draws_part hf hc).trans (Branch.draws_plug hs.inner)
  · cases hd
  · exact hrest _ (.inr (.inl rfl))
  · cases hd

/-- A call is a direct call of the expressions around it. -/
theorem mem_direct_plug (hx : x.kind = .call) (hz : ∀ f ∈ z, f.tag.kind.isAround = true) :
    x.id ∈ (plug z x).direct := by
  have hdraws : Branch.Draws (x.id + 1) x (plug z x) := Branch.draws_plug hz
  refine hdraws.direct (Nat.lt_succ_self _) ?_
  obtain ⟨tag, cs⟩ := x
  exact (Branch.direct_node (by rw [show tag.kind = .call from hx]; rfl)).mpr (.inl ⟨hx, rfl⟩)

theorem mem_operand_parts (f : Frame) (below : List Frame) (x : Branch) :
    x ∈ (f.left ++ plug below x :: f.right).flatMap Branch.parts :=
  List.mem_flatMap.mpr ⟨plug below x, by simp, mem_plug_parts x.self_mem_parts⟩

/-- A step puts statements that are derived from a statement in its place. The call that is worked on
is a direct call of the expression of that, and stays in the program. -/
theorem Turn.derived (h : Turn x moved b s b' s') (hx : x.kind = .call)
    (hb : b.Fits true .program) : ∃ (site : Site) (e c : Branch) (ds : List Branch),
      site.Rooted ∧ Heads e (plug site.base e) ∧ x.id ∈ e.direct ∧
      b = plug (site.spot.around []) (plug site.base e) ∧ b' = plug (site.spot.around ds) c ∧
      (∀ d ∈ ds ++ [c], Derived s.size e (plug site.base e) d) ∧ ∃ d ∈ ds ++ [c], x ∈ d.parts := by
  cases h with
  | expose site supply rooted regular always =>
    have hlabels : ∀ f ∈ site.labels, f.Regular := fun f hf =>
      hb.regular f (Site.mem_frames_of_labels hf)
    refine ⟨site, plug site.inner x, _, _, rooted, rooted.heads hlabels _,
      mem_direct_plug hx rooted.inner, ?_, ?_,
      rooted.derived_exposed hlabels regular (.refl x), _,
      List.mem_append_right _ List.mem_cons_self, mem_plug_parts (mem_plug_parts x.self_mem_parts)⟩
    · rw [Site.frames, plug_append, plug_append]
    · rw [Site.plug_exposed, plug_append, plug_append]
  | decide site below f supply rooted regular around sometimes always needed =>
    have hlabels : ∀ f ∈ site.labels, f.Regular := fun g hg =>
      hb.regular g (List.mem_append_right _ (List.mem_cons_of_mem _ (Site.mem_frames_of_labels hg)))
    obtain ⟨hown, hinner⟩ := List.forall_mem_cons.mp regular
    have hf : f.tag.kind.isAround = true := around f (by simp)
    have hall : ∀ g ∈ below ++ f :: site.inner, g.tag.kind.isAround = true := by
      simp only [List.forall_mem_append, List.forall_mem_cons] at around ⊢
      exact ⟨around.1, around.2.1, rooted.inner⟩
    obtain ⟨-, hlen⟩ := Step.operands_of_regular hown sometimes
    have hself := mem_direct_plug hx hall
    rw [plug_append_cons] at hself
    refine ⟨site, plug site.inner (f.fill (plug below x)), _, _, rooted, rooted.heads hlabels _,
      hself, ?_, ?_, rooted.derived_decided hlabels hinner hf hown sometimes (plug below x), _,
      List.mem_append_left _ (List.mem_append_right _ (List.mem_cons_of_mem _ List.mem_cons_self)),
      mem_choosing (hlen _) (mem_operand_parts f below x)⟩
    · rw [plug_append_cons, Site.frames, plug_append, plug_append]
    · rw [Site.decided, Site.frames_exposed, plug_append, plug_append]
  | rewrite site below f supply rooted regular around sometimes inner right root =>
    have hlabels : ∀ f ∈ site.labels, f.Regular := fun g hg =>
      hb.regular g (List.mem_append_right _ (List.mem_cons_of_mem _ (Site.mem_frames_of_labels hg)))
    have hf : f.tag.kind.isAround = true := around f (by simp)
    obtain ⟨-, hlen⟩ := Step.operands_of_regular regular sometimes
    have hhead := rooted.heads hlabels (f.fill (plug below x))
    have hchoice : Derived s.size (f.fill (plug below x)) (plug site.base (f.fill (plug below x)))
        (f.choosing s.size none (plug below x)).1 :=
      derived_choosing hhead (hlen _) fun c hc => Branch.draws_part hf hc
    have hself := mem_direct_plug hx around
    rw [plug_append] at hself
    refine ⟨site, f.fill (plug below x), _, [], rooted, hhead, hself, ?_, ?_,
      List.forall_mem_singleton.mpr (hchoice.labelled rooted.labels hlabels),
      _, List.mem_singleton_self _,
      mem_plug_parts (mem_choosing (hlen _) (mem_operand_parts f below x))⟩
    · rw [plug_append_cons, Site.frames, inner, List.nil_append, plug_append]
    · rw [Site.rewritten, plug_append]
  | relocate site supply rooted regular free =>
    have hlabels : ∀ f ∈ site.labels, f.Regular := fun f hf =>
      hb.regular f (Site.mem_frames_of_labels hf)
    have hhead := rooted.heads hlabels (plug site.inner x)
    refine ⟨site, plug site.inner x, _, [.declaring (s.size + 1) s.valueName x], rooted, hhead,
      mem_direct_plug hx rooted.inner, ?_, ?_, List.forall_mem_cons.mpr ⟨derived_declaring hhead (Branch.draws_plug rooted.inner) _ _,
        List.forall_mem_singleton.mpr
          (derived_base rooted hlabels
            ((Branch.draws_madeName s.size s.valueName x.span x).plug rooted.inner))⟩,
      _, List.mem_cons_self, Branch.parts_declaring _ _ _ x.self_mem_parts⟩
    · rw [Site.frames, plug_append, plug_append]
    · rw [Site.relocated, Site.frames_behind, plug_append, plug_append]

/-- The rooms of a program after a step were rooms before. -/
theorem Turn.houses (h : Turn x moved b s b' s') (hx : x.kind = .call) (hb : b.Fits true .program)
    (hp : p < s.size) (hq : q < s.size) (hin : b'.Houses true o p q) : b.Houses true o p q := by
  obtain ⟨site, e, c, ds, hsite, -, -, rfl, rfl, hderived, -⟩ := h.derived hx hb
  exact Spot.houses hsite.spot (fun d hd => (hderived d hd).houses hp hq) hin

theorem isAlterable_of_mem_parts (hx : x.kind = .call) (h : x ∈ b.parts) :
    b.isAlterable K = true := by
  obtain ⟨z, rfl⟩ := exists_plug_of_mem_parts h
  refine isAlterable_plug ?_
  obtain ⟨tag, cs⟩ := x
  rw [Branch.isAlterable, Branch.tags, List.any_cons, Tag.isAlterable,
    show tag.kind = .call from hx]
  rfl

/-- What is free after a step for a call was free before, if it is not evaluated in the same statement
as the call. -/
theorem Turn.found_apart (h : Turn x moved b s b' s') (hx : x.kind = .call)
    (hb : b.Fits true .program) (hn : n < s.size) (hroom : ¬ b.Houses true true x.id n)
    (hin : n ∈ b'.found (freeing K) false) : n ∈ b.found (freeing K) false := by
  obtain ⟨site, e, c, ds, hsite, hhead, hself, rfl, rfl, hderived, d, hd, hmem⟩ := h.derived hx hb
  refine Spot.found hsite.spot hb ⟨d, hd, isAlterable_of_mem_parts hx hmem⟩ (fun d hd hin => ?_) hin
  refine ((hderived d hd).found hn hin).resolve_left fun hdirect => hroom ?_
  exact Spot.houses_around hsite.spot (hhead.direct hself hdirect)

/-- What is free after a free call was moved was free before. -/
theorem Turn.found_moved (h : Turn x true b s b' s') (hx : x.kind = .call)
    (hb : b.Fits true .program) (hs : s.constants ⊆ K) (hv : s.valueName ∉ K)
    (hin : n ∈ b'.found (freeing K) false) : n ∈ b.found (freeing K) false := by
  cases h with
  | relocate site supply rooted regular free =>
    let name := Branch.madeName s.size s.valueName x.span
    have halterable : name.isAlterable K = true := by
      simp [name, Branch.isAlterable, Branch.madeName, Branch.made, Branch.tags, Tag.isAlterable, hv]
    have hwhole : plug site.frames x =
        plug (site.spot.around []) (plug (site.inner ++ site.base) x) := plug_append _ _ _
    have htold : along (freeing K) true (site.inner ++ site.base) = true := by
      rw [along_append, along_base rooted, along_of_free rooted.inner fun f hf =>
        Frame.holdsBack_mono hs (free f hf)]
    rw [Site.relocated, Site.frames_behind, plug_append (_ ++ site.base)] at hin
    rw [hwhole] at hb ⊢
    refine Spot.found rooted.spot hb ⟨_, List.mem_cons_self, isAlterable_of_mem_parts hx
      (Branch.parts_declaring _ _ _ x.self_mem_parts)⟩ (List.forall_mem_cons.mpr ⟨fun hin => ?_,
        List.forall_mem_singleton.mpr fun hin => ?_⟩) hin
    · refine found_plug ?_
      rw [htold]
      exact of_found_declaring hin
    · refine found_exchange (c := name) (fun z₁ f z₂ he => ?_) halterable (by rw [hx]; rfl)
        (fun form hform => ?_) (fun m hin => ?_) hin
      · have hinside : (plug (z₁ ++ f :: (z₂ ++ site.spot.around [])) x).Fits true .program := by
          rwa [← plug_append, he, List.append_assoc] at hb
        exact followed_of_fits z₁ hinside
      · cases hform with
        | name h => exact Kind.noConfusion (hx.symm.trans h)
        | property h => exact Kind.noConfusion (hx.symm.trans h)
        | element h => exact Kind.noConfusion (hx.symm.trans h)
      · rcases found_node.mp hin with ⟨-, hcall, -⟩ | hin
        · cases hcall
        · cases hin

end Turn

end Hoist
