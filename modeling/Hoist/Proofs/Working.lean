import Hoist.Proofs.Exposed
import Hoist.Proofs.Remaining

namespace Hoist

theorem node_plug (tag : Tag) (ls rs : List Branch) (z : List Frame) (x : Branch) :
    .node tag (ls ++ plug z x :: rs) = plug (z ++ [⟨tag, ls, rs⟩]) x :=
  (plug_append_cons z ⟨tag, ls, rs⟩ [] x).symm

/-- A part of a branch stands in frames. -/
theorem exists_plug_of_mem_parts {b x : Branch} (h : x ∈ b.parts) : ∃ z, b = plug z x := by
  induction b using Branch.induct with
  | node tag cs ih =>
    rw [Branch.parts, List.mem_cons, List.mem_flatMap] at h
    rcases h with rfl | ⟨c, hc, hx⟩
    · exact ⟨[], rfl⟩
    · obtain ⟨ls, rs, rfl⟩ := List.append_of_mem hc
      obtain ⟨z, rfl⟩ := ih _ hc hx
      exact ⟨z ++ [⟨tag, ls, rs⟩], node_plug tag ls rs z x⟩

/-- What a branch holds stands in frames. -/
theorem exists_plug_of_mem_ids {b : Branch} {n : NodeId} (h : n ∈ b.ids) :
    ∃ z x, b = plug z x ∧ x.id = n := by
  rw [← Branch.map_parts] at h
  obtain ⟨x, hx, rfl⟩ := List.mem_map.mp h
  obtain ⟨z, rfl⟩ := exists_plug_of_mem_parts hx
  exact ⟨z, x, rfl, rfl⟩

namespace Tree

variable {t : Tree} {b : Branch}

/-- No node is stray among different ones that are named by all that they list. -/
theorem findStray_eq_none {ns seen : List NodeId}
    (hparent : ∀ n ∈ ns, ∀ c ∈ t.children n, t.parent c = some n) (hnodup : ns.Nodup)
    (hseen : ∀ n ∈ ns, n ∉ seen) : t.findStray seen ns = none := by
  induction ns generalizing seen with
  | nil => rfl
  | cons n ns ih =>
    have hnone : (t.children n).find? (fun c => t.parent c != some n) = none := by
      rw [List.find?_eq_none]
      intro c hc
      simp [hparent n List.mem_cons_self c hc]
    have hfresh : seen.contains n = false := by simpa using hseen n List.mem_cons_self
    obtain ⟨hn, hns⟩ := List.nodup_cons.mp hnodup
    rw [findStray, hfresh, hnone]
    refine ih (fun m hm => hparent m (List.mem_cons_of_mem _ hm)) hns fun m hm => ?_
    rw [List.mem_cons, not_or]
    exact ⟨fun he => hn (he ▸ hm), hseen m (List.mem_cons_of_mem _ hm)⟩

/-- A tree that holds a branch under the script passes its check. -/
theorem Holds.check (h : t.Holds [b]) (hb : b.id = root) : t.check = .ok () := by
  have hparent : ∀ n ∈ b.ids, ∀ c ∈ t.children n, t.parent c = some n := by
    intro n hn c hc
    obtain ⟨z, x, rfl, rfl⟩ := exists_plug_of_mem_ids hn
    rw [h.shows.children] at hc
    obtain ⟨d, hd, rfl⟩ := List.mem_map.mp hc
    obtain ⟨tag, cs⟩ := x
    obtain ⟨ls, rs, rfl⟩ := List.append_of_mem (show d ∈ cs from hd)
    have hfill : plug z (.node tag (ls ++ d :: rs)) = plug (⟨tag, ls, rs⟩ :: z) d := rfl
    rw [hfill] at h
    exact h.parent_eq
  have hpreorder : t.preorder root = b.ids := by
    rw [← hb]
    exact Holds.preorder (z := []) h
  have hnodup : b.ids.Nodup := by simpa using h.nodup
  rw [Tree.check, hpreorder, findStray_eq_none hparent hnodup (by simp)]

end Tree

/-- Steps keep the script where it is. -/
theorem Turn.tag_eq {x b b' : Branch} {s s' : Supply} {moved : Bool}
    (h : Turn x moved b s b' s') : b'.tag = b.tag := by
  have hlist : ∀ (p : Spot) (z gs : List Frame) (ds es : List Branch) (c d : Branch),
      (plug (z ++ p.around ds) c).tag = (plug (gs ++ p.around es) d).tag := by
    intro p z gs ds es c d
    rw [plug_append, plug_append]
    exact plug_congr_tag (z := p.outer) rfl
  cases h with
  | expose site =>
    rw [Site.plug_exposed]
    exact hlist _ _ _ _ _ _ _
  | decide site below f =>
    rw [Site.decided, Site.frames_exposed, Site.frames, plug_append_cons]
    exact hlist _ _ _ _ _ _ _
  | rewrite site below f =>
    rw [Site.rewritten, Site.frames, plug_append_cons]
    exact hlist _ _ _ _ _ _ _
  | relocate site =>
    rw [Site.relocated, Site.frames_behind]
    exact hlist _ _ _ _ _ _ _

theorem Run.tag_eq {b b' : Branch} {s s' : Supply} (h : Run b s b' s') : b'.tag = b.tag := by
  induction h with
  | refl => rfl
  | step turn _ _ ih => exact ih.trans turn.tag_eq

theorem Run.id_eq {b b' : Branch} {s s' : Supply} (h : Run b s b' s') : b'.id = b.id :=
  congrArg Tag.id h.tag_eq

/-- The name that a call calls, if it is one. -/
def Branch.callee? (b : Branch) : Option String := b.children.head?.bind fun c => c.kind.name?

/-- What is done with a call of a program, and what is reported about it. -/
inductive Work (settings : Settings) (x : Branch) :
    Branch → Supply → CallSite → Branch → Supply → Prop
  /-- Nothing can be declared before the call. -/
  | bounded {z : List Frame} (u : Supply) (bounded : Bounded z) :
    Work settings x (plug z x) u ⟨x.callee?.getD "", x.span.start, .undecomposable, false⟩
      (plug z x) u
  /-- The call is made movable and stays where it is. -/
  | stay {s s' : Site} {u u' : Supply} (rooted : s.Rooted)
    (passes : Passes x (s.budget x) s u s' u')
    (stays : (settings.relocate && !isAlone s'.frames) = false) :
    Work settings x (plug s.frames x) u
      ⟨x.callee?.getD "", x.span.start, s.movability u.constants, false⟩ (plug s'.frames x) u'
  /-- The call is made movable and moved in front of its statement. -/
  | move {s s' : Site} {u u' : Supply} (rooted : s.Rooted)
    (passes : Passes x (s.budget x) s u s' u')
    (moves : (settings.relocate && !isAlone s'.frames) = true) :
    Work settings x (plug s.frames x) u
      ⟨x.callee?.getD "", x.span.start, s.movability u.constants, true⟩ (s'.relocated u' x).1
      (s'.relocated u' x).2.reported

/-- What is done with calls of a program, one after the other, and what is reported about them. -/
inductive Worked (settings : Settings) :
    List Branch → Branch → Supply → List CallSite → Branch → Supply → Prop
  | nil (b : Branch) (u : Supply) : Worked settings [] b u [] b u
  | cons {x b b' b'' : Branch} {calls : List Branch} {u u' u'' : Supply} {site : CallSite}
    {sites : List CallSite} (work : Work settings x b u site b' u')
    (rest : Worked settings calls b' u' sites b'' u'') :
    Worked settings (x :: calls) b u (site :: sites) b'' u''

variable {settings : Settings} {x y b b' : Branch} {u u' : Supply} {site : CallSite}
  {calls : List Branch} {sites : List CallSite} {z : List Frame}

theorem kind_of_isPlainCall (h : x.isPlainCall = true) : x.kind = .call := by
  obtain ⟨tag, cs⟩ := x
  rw [Branch.isPlainCall, Bool.and_eq_true, decide_eq_true_iff] at h
  exact h.1

theorem Passes.remains {n : Nat} {s s' : Site} (h : Passes x n s u s' u')
    (hy : y ∈ (plug s.frames x).parts) (hk : y.kind = .call) (hx : x.id ∉ y.ids) :
    y ∈ (plug s'.frames x).parts := by
  induction h with
  | movable => exact hy
  | pass _ _ turn _ ih => exact ih (turn.remains hy hk hx)

namespace Work

theorem run (h : Work settings x b u site b' u') (hx : x.kind = .call)
    (hb : b.Fits true .program) : Run b u b' u' := by
  cases h with
  | bounded => exact .refl _ _
  | stay _ passes => exact passes.run hx
  | @move s s' _ v _ passes =>
    have hrun := passes.run hx
    obtain ⟨hsite, hmovable⟩ := passes.ends
    have hturn := (Step.leads_relocate (o := []) hx hsite (hrun.fits hb) hmovable).2
    exact hrun.trans (.single hturn hx)

/-- The other calls remain as they are, apart from those that hold the one that is worked on. -/
theorem remains (h : Work settings x b u site b' u') (hx : x.kind = .call)
    (hb : b.Fits true .program) (hy : y ∈ b.parts) (hk : y.kind = .call) (hxy : x.id ∉ y.ids) :
    y ∈ b'.parts := by
  cases h with
  | bounded => exact hy
  | stay _ passes => exact passes.remains hy hk hxy
  | @move s s' _ v _ passes =>
    obtain ⟨hsite, hmovable⟩ := passes.ends
    have hturn := (Step.leads_relocate (o := []) hx hsite ((passes.run hx).fits hb) hmovable).2
    exact hturn.remains (passes.remains hy hk hxy) hk hxy

/-- A call is exposed unless nothing can be declared before it. -/
theorem exposed (h : Work settings x b u site b' u') (hx : x.isPlainCall = true)
    (hb : b.Fits true .program) (hm : site.movability ≠ .undecomposable) :
    Exposed settings x.id b' u' := by
  have hk := kind_of_isPlainCall hx
  cases h with
  | bounded => exact absurd rfl hm
  | stay _ passes stays =>
    obtain ⟨hsite, hmovable⟩ := passes.ends
    have hfits := (passes.run hk).fits hb
    refine ⟨hsite.found_free hx hmovable, fun hr => found_alone hfits hx ?_⟩
    simpa [hr] using stays
  | move _ passes =>
    obtain ⟨hsite, hmovable⟩ := passes.ends
    have hfits := (passes.run hk).fits hb
    have hturn := (Step.leads_relocate (o := []) hk hsite hfits hmovable).2
    exact ⟨(Run.single hturn hk).found_freeing hfits false (hsite.found_free hx hmovable),
      fun _ => Site.found_relocated _ _ hx⟩

end Work

/-- Every call of a program can be worked on. -/
theorem exists_work (settings : Settings) (u : Supply) (hx : x.kind = .call)
    (hb : (plug z x).Fits true .program) :
    ∃ (site : CallSite) (b' : Branch) (u' : Supply), Work settings x (plug z x) u site b' u' := by
  rcases site_of_call hb hx with ⟨s, hs, rfl⟩ | hbounded
  · obtain ⟨s', u', passes⟩ := hs.exists_passes_budget (u := u) hx hb
    cases hmoves : settings.relocate && !isAlone s'.frames with
    | false => exact ⟨_, _, _, .stay hs passes hmoves⟩
    | true => exact ⟨_, _, _, .move hs passes hmoves⟩
  · exact ⟨_, _, _, .bounded u hbounded⟩

/-- Calls of a program of which none holds one that comes before it. -/
structure Awaiting (b : Branch) (calls : List Branch) : Prop where
  parts : ∀ x ∈ calls, x ∈ b.parts
  plain : ∀ x ∈ calls, x.isPlainCall = true
  apart : calls.Pairwise fun x y => x.id ∉ y.ids

theorem Awaiting.tail (h : Awaiting b (x :: calls)) (work : Work settings x b u site b' u')
    (hb : b.Fits true .program) : Awaiting b' calls := by
  obtain ⟨hxy, hapart⟩ := List.pairwise_cons.mp h.apart
  have hplain : ∀ y ∈ calls, y.isPlainCall = true := fun y hy => h.plain y (List.mem_cons_of_mem _ hy)
  exact ⟨fun y hy => work.remains (kind_of_isPlainCall (h.plain x List.mem_cons_self)) hb
    (h.parts y (List.mem_cons_of_mem _ hy)) (kind_of_isPlainCall (hplain y hy)) (hxy y hy), hplain,
    hapart⟩

/-- Calls that await it can be worked on one after the other. -/
theorem Awaiting.exists_worked (settings : Settings) (u : Supply) (h : Awaiting b calls)
    (hb : b.Fits true .program) : ∃ (sites : List CallSite) (b' : Branch) (u' : Supply),
      Worked settings calls b u sites b' u' := by
  induction calls generalizing b u with
  | nil => exact ⟨[], b, u, .nil b u⟩
  | cons x calls ih =>
    have hx := kind_of_isPlainCall (h.plain x List.mem_cons_self)
    obtain ⟨z, rfl⟩ := exists_plug_of_mem_parts (h.parts x List.mem_cons_self)
    obtain ⟨site, b', u', work⟩ := exists_work settings u hx hb
    obtain ⟨sites, b'', u'', rest⟩ := ih u' (h.tail work hb) ((work.run hx hb).fits hb)
    exact ⟨site :: sites, b'', u'', .cons work rest⟩

theorem Worked.run (h : Worked settings calls b u sites b' u')
    (hc : ∀ x ∈ calls, x.kind = .call) (hb : b.Fits true .program) : Run b u b' u' := by
  induction h with
  | nil => exact .refl _ _
  | cons work _ ih =>
    obtain ⟨hx, hc⟩ := List.forall_mem_cons.mp hc
    have hrun := work.run hx hb
    exact hrun.trans (ih hc (hrun.fits hb))

/-- What is true of the report on a call in a program. -/
structure Step.Reported (settings : Settings) (start : Position) (b : Branch) (s : Supply)
    (call : NodeId) (site : CallSite) : Prop where
  start : site.start = start
  exposed : site.movability ≠ .undecomposable → Exposed settings call b s

theorem Work.start_eq (h : Work settings x b u site b' u') : site.start = x.span.start := by
  cases h <;> rfl

/-- Every call is reported, and what was exposed stays so while others are worked on. -/
theorem Worked.reported (h : Worked settings calls b u sites b' u')
    (hc : ∀ x ∈ calls, x.isPlainCall = true) (hb : b.Fits true .program) :
    List.Forall₂ (fun x => Step.Reported settings x.span.start b' u' x.id) calls sites := by
  induction h with
  | nil => exact .nil
  | cons work rest ih =>
    obtain ⟨hx, hc⟩ := List.forall_mem_cons.mp hc
    have hfits := (work.run (kind_of_isPlainCall hx) hb).fits hb
    have hrun := rest.run (fun y hy => kind_of_isPlainCall (hc y hy)) hfits
    exact .cons ⟨work.start_eq, fun hm => (work.exposed hx hb hm).of_run hrun hfits⟩ (ih hc hfits)

/-- The text of a branch on one line, an expression without a semicolon. -/
def Branch.sourceText (b : Branch) : String :=
  let w := b.shape.written
  piecesText (if w.kind.level?.isSome then w.expression commaLevel else w.statement)

theorem Tree.Holds.sourceOf {t : Tree} {z : List Frame} {o : List Branch}
    (h : t.Holds (plug z x :: o)) : t.sourceOf x.id = x.sourceText := by
  rw [Tree.sourceOf, h.shape]
  rfl

/-- The warning about a call that nothing can be declared before. -/
def Branch.warning? (file : String) (x : Branch) (site : CallSite) : Option Warning :=
  if site.movability = .undecomposable then some ⟨x.sourceText, x.span, file⟩ else none

/-- The warnings about calls, in the order in which the calls are reported. -/
def warningsAbout (file : String) (calls : List Branch) (sites : List CallSite) : List Warning :=
  (calls.zip sites).filterMap fun p => p.1.warning? file p.2

theorem warningsAbout_cons (file : String) (x : Branch) (calls : List Branch) (site : CallSite)
    (sites : List CallSite) : warningsAbout file (x :: calls) (site :: sites) =
      (x.warning? file site).toList ++ warningsAbout file calls sites := by
  rw [warningsAbout, List.zip_cons_cons, List.filterMap_cons]
  cases x.warning? file site <;> rfl

namespace Step

/-- What is told of a call once it was exposed. -/
theorem leads_exposeSite_of {z : List Frame} {m : Movability} {moved : Bool}
    (hroot : (plug z x).id = Tree.root)
    (hclassify : (classify x.id).Leads u [plug z x] m u [plug z x])
    (hexpose : (exposeKnown settings x.id m).Leads u [plug z x] moved u' [b'])
    (hx : x ∈ b'.parts) : (exposeSite settings x.id).Leads u [plug z x]
      (some ⟨x.callee?.getD "", x.span.start, m, moved⟩) u' [b'] := by
  refine leads_look_bind fun t ht _ => ?_
  have hinside : t.isDescendantOrSelf x.id Tree.root = true := by
    have hancestors : t.ancestors x.id = z.map fun f => f.tag.id := ht.ancestors
    rw [Tree.isDescendantOrSelf, hancestors, Bool.or_eq_true, beq_iff_eq, List.contains_iff_mem,
      ← hroot]
    rcases List.eq_nil_or_concat' z with rfl | ⟨z, f, rfl⟩
    · exact .inl rfl
    · rw [plug_append]
      exact .inr (by simp [Frame.fill])
  rw [hinside]
  refine .bind (leads_look fun t ht _ => congrArg Span.start ht.shows.span) (.bind hclassify
    (.bind hexpose (.bind (leads_look fun t ht _ => ?_) leads_pure)))
  obtain ⟨z', rfl⟩ := exists_plug_of_mem_parts hx
  obtain ⟨tag, cs⟩ := x
  rw [Tree.callee?, Tree.firstChild, ht.shows.children, Branch.callee?, List.head?_map]
  cases cs with
  | nil => rfl
  | cons c cs => exact (ht.shows.child c List.mem_cons_self).name?

/-- A call that something can be declared before is exposed once it is known to be one. -/
theorem leads_exposeKnown {s : Site} {m : Movability} (hm : m ≠ .undecomposable) {moved : Bool}
    (h : (do
      expose x.id
      if settings.relocate && !(← look (·.standsAlone x.id)) then
        discard (relocate x.id)
        return true
      else
        return false : Step Bool).Leads u [plug s.frames x] moved u' [b']) :
    (exposeKnown settings x.id m).Leads u [plug s.frames x] moved u' [b'] := by
  cases m with
  | undecomposable => exact absurd rfl hm
  | movable | decomposable => exact h

/-- A call of a program is exposed and reported as it is worked on. -/
theorem leads_exposeSite (h : Work settings x b u site b' u') (hx : x.kind = .call)
    (hb : b.Fits true .program) (hroot : b.id = Tree.root) :
    (exposeSite settings x.id).Leads u [b] (some site) u' [b'] := by
  have hknown : ∀ (s : Site), s.movability u.constants ≠ .undecomposable := fun s => by
    rcases s.movability_cases u.constants with hm | hm <;> rw [hm] <;> simp
  cases h with
  | bounded _ bounded =>
    exact leads_exposeSite_of hroot (leads_classify_bounded bounded) leads_pure
      (mem_plug_parts x.self_mem_parts)
  | @stay s s' _ _ rooted passes stays =>
    refine leads_exposeSite_of hroot (leads_classify_call hx rooted hb) (leads_exposeKnown (hknown s)
      (.bind (leads_expose passes hx rooted hb) (leads_look_bind fun t ht _ => ?_)))
      (mem_plug_parts x.self_mem_parts)
    rw [ht.standsAlone, stays]
    exact leads_pure
  | @move s s' _ v rooted passes moves =>
    obtain ⟨hsite, hmovable⟩ := passes.ends
    have hrelocate := (leads_relocate (o := []) hx hsite ((passes.run hx).fits hb) hmovable).1
    refine leads_exposeSite_of hroot (leads_classify_call hx rooted hb) (leads_exposeKnown (hknown s)
      (.bind (leads_expose passes hx rooted hb) (leads_look_bind fun t ht _ => ?_)))
      (mem_plug_beside (Site.mem_declared ?_))
    · rw [ht.standsAlone, moves]
      exact .bind hrelocate.discard leads_pure
    · rw [List.flatMap_singleton]
      exact Branch.parts_declaring _ _ _ x.self_mem_parts

/-- The warning about a call is asked for where the call is as it was found. -/
theorem Work.warningOf_eq (file : String) (h : Work settings x b u site b' u') {w : Workspace}
    (hw : w.Has u' [b']) : warningOf file x.id site w = .ok (x.warning? file site) w := by
  cases h with
  | @bounded z =>
    have hx : w.tree.Holds [plug z x] := hw.holds
    rw [warningOf, Branch.warning?, if_pos rfl, ← hx.sourceOf, ← hx.shows.span]
    rfl
  | @stay s =>
    rcases s.movability_cases u.constants with hm | hm
    all_goals
      rw [warningOf, hm]
      rfl
  | @move s =>
    rcases s.movability_cases u.constants with hm | hm
    all_goals
      rw [warningOf, hm]
      rfl

/-- Calls of a program are exposed and reported as they are worked on. -/
theorem exposeSites_worked (file : String) (h : Worked settings calls b u sites b' u')
    (hc : ∀ x ∈ calls, x.kind = .call) (hb : b.Fits true .program) (hroot : b.id = Tree.root)
    {w : Workspace} (hw : w.Has u [b]) : ∃ w' : Workspace,
      exposeSites settings file (calls.map Branch.id) w =
        .ok (sites, warningsAbout file calls sites) w' ∧ w'.Has u' [b'] := by
  induction h generalizing w with
  | nil => exact ⟨w, rfl, hw⟩
  | @cons x b b₁ _ calls u u₁ _ site sites work rest ih =>
    obtain ⟨hx, hc⟩ := List.forall_mem_cons.mp hc
    obtain ⟨w₁, hsite, hw₁⟩ := leads_exposeSite work hx hb hroot w hw
    have hrun := work.run hx hb
    obtain ⟨w', hsites, hw'⟩ := ih hc (hrun.fits hb) (hrun.id_eq.trans hroot) hw₁
    refine ⟨w', ?_, hw'⟩
    rw [List.map_cons, exposeSites]
    show EStateM.bind (exposeSite settings x.id) _ w = _
    rw [EStateM.bind, hsite]
    show EStateM.bind (warningOf file x.id site) _ w₁ = _
    rw [EStateM.bind, Work.warningOf_eq file work hw₁]
    show EStateM.bind (exposeSites settings file (calls.map Branch.id)) _ w₁ = _
    rw [EStateM.bind, hsites, warningsAbout_cons]
    rfl

end Step

/-- The calls of a program that the settings ask for, in the order in which they are written. -/
def Branch.callSites (settings : Settings) (b : Branch) : List Branch :=
  b.parts.filter fun c => c.kind = .call && c.callee?.any settings.exposes

theorem Branch.of_mem_callSites {c : Branch} (h : c ∈ b.callSites settings) :
    c ∈ b.parts ∧ c.isPlainCall = true ∧ ∃ name, c.callee? = some name := by
  rw [callSites, List.mem_filter, Bool.and_eq_true, decide_eq_true_iff] at h
  obtain ⟨hparts, hkind, hcallee⟩ := h
  obtain ⟨name, hname⟩ : ∃ name, c.callee? = some name := by
    cases hc : c.callee? with
    | none => rw [hc] at hcallee; cases hcallee
    | some name => exact ⟨name, rfl⟩
  refine ⟨hparts, ?_, name, hname⟩
  obtain ⟨tag, cs⟩ := c
  rw [isPlainCall, Bool.and_eq_true, decide_eq_true_iff]
  refine ⟨hkind, ?_⟩
  cases cs with
  | nil => rfl
  | cons first rest =>
    have hfirst : first.kind.name? = some name := hname
    rw [startsWithMember, List.head?_cons, Option.any_some]
    cases hk : first.kind <;> rw [hk] at hfirst <;> first | rfl | cases hfirst

/-- The calls that are found in a tree are those of the program that it holds. -/
theorem Tree.Holds.callSites {t : Tree} (h : t.Holds [b]) (hb : b.id = root) (settings : Settings) :
    t.callSites settings = (b.callSites settings).map Branch.id := by
  have hpreorder : t.preorder root = b.parts.map Branch.id := by
    rw [← hb, Branch.map_parts]
    exact Holds.preorder (z := []) h
  rw [Tree.callSites, hpreorder, List.filter_map, Branch.callSites]
  refine congrArg _ (List.filter_congr fun c hc => ?_)
  obtain ⟨z, rfl⟩ := exists_plug_of_mem_parts hc
  obtain ⟨tag, cs⟩ := c
  have hkind : t.kind tag.id = tag.kind := h.shows.kind
  have hcallee : t.callee? tag.id = (Branch.node tag cs).callee? := by
    have hchildren : t.children tag.id = cs.map Branch.id := h.shows.children
    rw [Tree.callee?, Tree.firstChild, hchildren, Branch.callee?, List.head?_map]
    cases cs with
    | nil => rfl
    | cons c cs => exact (h.shows.child c List.mem_cons_self).name?
  rw [Function.comp, Branch.id_node, hkind, hcallee]
  rfl

theorem awaiting_callSites (hn : b.ids.Nodup) (settings : Settings) :
    Awaiting b (b.callSites settings) where
  parts _ hx := (Branch.of_mem_callSites hx).1
  plain _ hx := (Branch.of_mem_callSites hx).2.1
  apart := (Branch.pairwise_parts hn).filter _

/-- The work on the calls of a tree is what is done with the calls of the program that it holds. -/
theorem exposeCalls_worked {t : Tree} (h : t.Holds [b]) (hb : b.id = Tree.root)
    (hf : b.Fits true .program) (file : String)
    (hw : Worked settings (b.callSites settings) b ⟨t.size, 0, 0, [], settings.tempPrefix⟩ sites b'
      u') : ∃ w : Workspace,
      (t.exposeCalls settings file).run (.ofTree t settings.tempPrefix) =
        .ok (sites, warningsAbout file (b.callSites settings) sites) w ∧ w.Has u' [b'] := by
  have hc : ∀ x ∈ b.callSites settings, x.kind = .call := fun x hx =>
    kind_of_isPlainCall (Branch.of_mem_callSites hx).2.1
  have hstart : (Workspace.ofTree t settings.tempPrefix).Has ⟨t.size, 0, 0, [], settings.tempPrefix⟩
      [b] := ⟨h, rfl, rfl, rfl, rfl, rfl⟩
  obtain ⟨w, hsites, hhas⟩ := Step.exposeSites_worked file hw hc hf hb hstart
  refine ⟨w, ?_, hhas⟩
  have hcheck : w.tree.check = .ok () := hhas.holds.check ((hw.run hc hf).id_eq.trans hb)
  rw [Tree.exposeCalls, h.callSites hb]
  show EStateM.bind (Step.exposeSites settings file ((b.callSites settings).map Branch.id)) _
    (.ofTree t settings.tempPrefix) = _
  rw [EStateM.bind, hsites]
  show EStateM.bind (Step.ask Tree.check) _ w = _
  rw [EStateM.bind, Step.ask, hcheck]
  rfl

/-- The work on the calls of a tree is never refused, what it leaves is made of what the tree held in
a run, and it reports every call. -/
theorem exposeCalls_runs {t : Tree} {b : Branch} (h : t.Holds [b]) (hb : b.id = Tree.root)
    (hf : b.Fits true .program) (settings : Settings) (file : String) :
    ∃ (found : List CallSite × List Warning) (w : Workspace) (b' : Branch) (s' : Supply),
      (t.exposeCalls settings file).run (.ofTree t settings.tempPrefix) = .ok found w ∧
        w.Has s' [b'] ∧ Run b ⟨t.size, 0, 0, [], settings.tempPrefix⟩ b' s' ∧
        List.Forall₂ (fun call => Step.Reported settings (t.span call).start b' s' call)
          (t.callSites settings) found.1 := by
  have hn : b.ids.Nodup := by simpa using h.nodup
  obtain ⟨sites, b', s', hw⟩ := (awaiting_callSites hn settings).exists_worked settings
    ⟨t.size, 0, 0, [], settings.tempPrefix⟩ hf
  obtain ⟨w, hrun, hhas⟩ := exposeCalls_worked h hb hf file hw
  have hplain : ∀ x ∈ b.callSites settings, x.isPlainCall = true := fun x hx =>
    (Branch.of_mem_callSites hx).2.1
  have hspan : ∀ x ∈ b.callSites settings, t.span x.id = x.span := fun x hx => by
    obtain ⟨z, rfl⟩ := exists_plug_of_mem_parts (Branch.of_mem_callSites hx).1
    exact h.shows.span
  refine ⟨(sites, _), w, b', s', hrun, hhas,
    hw.run (fun x hx => kind_of_isPlainCall (hplain x hx)) hf, ?_⟩
  rw [h.callSites hb, List.forall₂_map_left_iff]
  refine ((List.forall₂_and_left _ _).mpr ⟨hspan, hw.reported hplain hf⟩).imp fun x site hx => ?_
  rw [hx.1]
  exact hx.2

end Hoist
