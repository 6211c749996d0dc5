import Hoist.Proofs.Declarators
import Hoist.Proofs.Retaining
import Hoist.Proofs.Runs

namespace Hoist

variable {w w' : Walk} {m e q : Bool} {n : NodeId} {a b c : Branch} {K : List String}

theorem found_part {tag : Tag} (left right : List Branch) (hw : w.Le w) (h : n ∈ c.found w e)
    (he : e = true → w m tag left = true) :
    n ∈ (Branch.node tag (left ++ c :: right)).found w m :=
  mem_found_fill (f := ⟨tag, left, right⟩).mpr (.inr (.inr (.inl (found_mono hw he h))))

section Choosing

variable {size : Nat} {result : Option String} {span : Span} (hw : w.Le w)
  (hfree : e = true → w = freeing K)
include hw hfree

theorem found_resulting (h : n ∈ b.found w e) (hm : e = true → m = true) :
    n ∈ (b.resulting size result span).1.found w m := by
  cases result with
  | none => exact found_mono hw hm h
  | some x =>
    refine found_part [_] [] hw h fun he => ?_
    rw [hfree he, freeing_around rfl, hm he]
    rfl

theorem found_resultStatement (h : n ∈ b.found w e) (hm : e = true → m = true) :
    n ∈ (b.resultStatement size result span).1.found w m := by
  refine found_part [] [] hw (found_resulting hw hfree h fun he => he)
    fun he => ?_
  rw [hfree he, freeing_root (.inl rfl), hm he]
  rfl

theorem found_block (h : n ∈ b.found w e) (id : NodeId) :
    n ∈ (Branch.made id .block span [b]).found w m := by
  refine found_part [] [] hw h fun he => ?_
  rw [hfree he, freeing_list rfl]

/-- What is found in an operand of a conditional is found in its `if`. -/
theorem found_choosing {op : ConditionalOp} {operands : List Branch}
    (hl : operands.length = op.operands) (hb : b ∈ operands) (h : n ∈ b.found w e)
    (hm : e = true → m = true) :
    n ∈ (Branch.choosing size result span op operands).1.found w m := by
  have hbehind : ∀ {size id : Nat} (left : List Branch) {right : List Branch} {tag : Tag},
      tag.kind = .if_ →
      n ∈ (Branch.node tag (left ++ (Branch.made id .block span
        [(b.resultStatement size result span).1]) :: right)).found w m := by
    intro size id left right tag ht
    refine found_part (e := false) left right hw ?_ fun he => by cases he
    exact found_block hw hfree (found_resultStatement hw hfree h fun he => he) _
  have hfirst : ∀ {c : Branch} {right : List Branch} {tag : Tag}, tag.kind = .if_ →
      n ∈ c.found w e → n ∈ (Branch.node tag (c :: right)).found w m := by
    intro c right tag ht hc
    refine found_part [] right hw hc fun he => ?_
    rw [hfree he, freeing_root (.inl (by rw [ht]; rfl)), hm he]
    rfl
  cases op with
  | choice =>
    obtain ⟨condition, first, second, rfl⟩ := List.length_eq_three.mp hl
    simp only [List.mem_cons, List.not_mem_nil, or_false] at hb
    rcases hb with rfl | rfl | rfl
    · exact hfirst rfl h
    · exact hbehind [_] rfl
    · exact hbehind [_, _] rfl
  | and_ =>
    obtain ⟨left, right, rfl⟩ := List.length_eq_two.mp hl
    simp only [List.mem_cons, List.not_mem_nil, or_false] at hb
    rcases hb with rfl | rfl
    · exact hfirst rfl (found_resulting hw hfree h fun he => he)
    · exact hbehind [_] rfl
  | or_ =>
    obtain ⟨left, right, rfl⟩ := List.length_eq_two.mp hl
    simp only [List.mem_cons, List.not_mem_nil, or_false] at hb
    rcases hb with rfl | rfl
    · exact hfirst rfl (found_resulting hw hfree h fun he => he)
    · exact hbehind [_, _] rfl

end Choosing

section Frames

variable {f : Frame} {z : List Frame}

/-- What stands behind a branch in a program is evaluated behind it. -/
theorem followed_of_fits (z₁ : List Frame) {z₂ : List Frame} (h : (plug (z₁ ++ f :: z₂) a).Fits true .program) :
    f.Followed (plug z₁ a) := by
  intro ls r rs he
  have hother : plug (z₁ ++ f :: z₂) a =
      plug (⟨f.tag, f.left ++ plug z₁ a :: ls, rs⟩ :: z₂) r := by
    rw [plug_append_cons, plug_cons, Frame.fill, Frame.fill, he]
    simp
  rw [hother] at h
  exact h.regular _ List.mem_cons_self

theorem isPlainCall_fill (h : c.kind.isMember = b.kind.isMember) (f : Frame) :
    (f.fill c).isPlainCall = (f.fill b).isPlainCall := by
  rw [Frame.fill, Frame.fill, Branch.isPlainCall, Branch.isPlainCall]
  cases f.left with
  | nil => simp [startsWithMember, h]
  | cons => rfl

theorem isMember_plug (h : c.kind.isMember = b.kind.isMember) (z : List Frame) :
    (plug z c).kind.isMember = (plug z b).kind.isMember := by
  induction z generalizing b c with
  | nil => exact h
  | cons f z ih => exact ih rfl

/-- What is found beside a branch is found in all that is around it. -/
theorem found_right (hw : w.Le w) (hf : f ∈ z) (hc : c ∈ f.right) (h : n ∈ c.found w false) :
    n ∈ (plug z b).found w m := by
  obtain ⟨z₁, z₂, rfl⟩ := List.append_of_mem hf
  rw [plug_append_cons]
  exact found_plug (found_beside hw (.inr hc) h)

theorem found_own {z₁ z₂ : List Frame} (hcall : (f.fill (plug z₁ b)).isPlainCall = true)
    (hm : along w m z₂ = true) : f.tag.id ∈ (plug (z₁ ++ f :: z₂) b).found w m := by
  rw [plug_append_cons]
  exact found_plug (mem_found_fill.mpr (.inl ⟨hm, hcall, rfl⟩))

end Frames

section Statements

variable {w' : Walk} {s : Site} {inner : List Frame} {ds : List Branch}

theorem isPlainCall_base (hs : s.Rooted) {f : Frame} (hf : f ∈ s.base) (b : Branch) :
    (f.fill b).isPlainCall = false := by
  have hk : f.tag.kind ≠ .call := by
    rcases List.mem_cons.mp hf with rfl | hf
    · rcases hs.root with hroot | hroot
      · intro hk
        rw [show s.root.kind = .call from hk] at hroot
        cases hroot
      · intro hk
        exact Kind.noConfusion (hroot.symm.trans hk)
    · obtain ⟨x, hx⟩ := hs.labels f hf
      rw [hx]
      simp
  rw [Frame.fill, Branch.isPlainCall, decide_eq_false hk, Bool.false_and]

theorem split_inner {inner base z₁ z₂ : List Frame} {f : Frame} (h : inner ++ base = z₁ ++ f :: z₂) :
    (∃ z, inner = z₁ ++ f :: z ∧ z₂ = z ++ base) ∨ ∃ z, z₁ = inner ++ z ∧ base = z ++ f :: z₂ := by
  rcases List.append_eq_append_iff.mp h with ⟨as, rfl, hbase⟩ | ⟨as, rfl, hrest⟩
  · exact .inr ⟨as, rfl, hbase⟩
  · cases as with
    | nil => exact .inr ⟨[], by simp, by simpa using hrest.symm⟩
    | cons g as =>
      obtain ⟨rfl, rfl⟩ := List.cons.inj hrest
      exact .inl ⟨as, rfl, rfl⟩

/-- What was found in a statement is found in declarations and in a statement with another
expression, if that goes for the expression and what is around it. -/
theorem Site.Rooted.retains (hs : s.Rooted) (hw : Follows w w' K q) (hcalls : a.calls ≠ [])
    (hb : (plug s.frames a).Fits true .program)
    (hframes : ∀ z₁ f z₂, s.inner = z₁ ++ f :: z₂ →
      (along w q (z₂ ++ s.base) = true → (f.fill (plug z₁ a)).isPlainCall = true →
        f.tag.id ∈ (plug (inner ++ s.base) c).found w' q) ∧
      (∀ d ∈ f.left, d.found w true ⊆ ds.flatMap (Branch.found w' q)) ∧
      ∀ d ∈ f.right, ∃ g ∈ inner, d ∈ g.right)
    (hole : a.found w (along w q (s.inner ++ s.base)) ⊆
      ds.flatMap (Branch.found w' q) ++ (plug (inner ++ s.base) c).found w' q) :
    (plug (s.inner ++ s.base) a).found w q ⊆
      ds.flatMap (Branch.found w' q) ++ (plug (inner ++ s.base) c).found w' q := by
  have hshuts : ∀ z₁ f z₂, s.inner ++ s.base = z₁ ++ f :: z₂ → f.Shuts w (plug z₁ a) := by
    intro z₁ f z₂ he
    have hwhole : plug s.frames a = plug (z₁ ++ f :: (z₂ ++ s.spot.around [])) a := by
      rw [Site.frames, he]
      simp
    rcases split_inner he with ⟨z, hinner, rfl⟩ | ⟨z, rfl, hbase⟩
    · refine hw.shuts (hs.inner f (by simp [hinner])) ?_ (followed_of_fits z₁ (hwhole ▸ hb))
      rw [calls_plug]
      simp [hcalls]
    · have hf : f ∈ s.base := by simp [hbase]
      rcases List.mem_cons.mp hf with rfl | hlabel
      · intro m ls r rs hright
        have hkind : s.root.kind.isAround = false ∧ s.root.kind.isStatementList = false ∧
            ∀ x, s.root.kind ≠ .label x := by
          rcases hs.root with hroot | hroot
          · cases hk : s.root.kind <;> rw [hk] at hroot <;> first
              | (cases hroot; done)
              | exact ⟨rfl, rfl, fun _ he => Kind.noConfusion he⟩
          · rw [hroot]
            exact ⟨rfl, rfl, fun _ he => Kind.noConfusion he⟩
        exact hw.behind (by simp) hkind.1 hkind.2.1 hkind.2.2
      · have hregular : f.Regular := hb.regular f (by simp [Site.frames, hf])
        intro m ls r rs hright
        rw [(hregular.alone (.inr (hs.labels f hlabel))).2] at hright
        cases ls <;> cases hright
  intro n hn
  rcases found_around hw.before hshuts hn with hn | ⟨z₁, f, z₂, he, hcase⟩
  · exact hole hn
  · rcases split_inner he with ⟨z, hinner, rfl⟩ | ⟨z, rfl, hbase⟩
    · obtain ⟨hown, hleft, hright⟩ := hframes z₁ f z hinner
      rcases hcase with ⟨htold, hcall, rfl⟩ | ⟨d, hd, hn⟩ | ⟨d, hd, hn⟩
      · exact List.mem_append_right _ (hown htold hcall)
      · exact List.mem_append_left _ (hleft d hd hn)
      · obtain ⟨g, hg, hdg⟩ := hright d hd
        exact List.mem_append_right _ (found_right hw.after (List.mem_append_left _ hg) hdg
          (found_mono hw.step (fun he => he) hn))
    · have hf : f ∈ s.base := by simp [hbase]
      rcases hcase with ⟨-, hcall, -⟩ | ⟨d, hd, hn⟩ | ⟨d, hd, hn⟩
      · rw [isPlainCall_base hs hf] at hcall
        cases hcall
      · have hnone : f.left = [] := by
          rcases List.mem_cons.mp hf with rfl | hlabel
          · rfl
          · have hregular : f.Regular := hb.regular f (by simp [Site.frames, hf])
            exact (hregular.alone (.inr (hs.labels f hlabel))).1
        rw [hnone] at hd
        cases hd
      · exact List.mem_append_right _ (found_right hw.after (List.mem_append_right _ hf) hd
          (found_mono hw.step (fun he => he) hn))

/-- After what is evaluated first was taken out, the parts of a statement are told no less. -/
theorem Follows.along_exposed (hw : Follows w w' K q) (hs : s.Rooted) {z : List Frame} (r : Pass)
    (ha : ∀ f ∈ z, f.tag.kind.isAround = true) (hp : ∀ f ∈ z, f.Passable)
    (he : r.effects = true) (hc : (r.exposeFrames z).2.supply.constants ⊆ K)
    (h : along w q (z ++ s.base) = true) :
    along w' q ((r.exposeFrames z).1 ++ s.base) = true := by
  rcases hw.parts with ⟨rfl, rfl⟩ | hname
  · rw [along_append, along_base hs, along_of_free (r.exposeFrames_around ha) fun g hg =>
      Frame.holdsBack_mono hc (r.exposeFrames_free hp he g hg)]
  · clear hp he hc
    induction z generalizing r with
    | nil => exact along_mono hw.step (fun h => h) _ h
    | cons f z ih =>
      obtain ⟨hf, hz⟩ := List.forall_mem_cons.mp ha
      obtain ⟨tag, left, right⟩ := f
      obtain ⟨-, rfl⟩ := hname _ tag left hf h
      exact hw.step.tells (ih r hz) h

/-- What is exchanged in a program for something in which no less is found leaves all else. -/
theorem Follows.exchange (hw : Follows w w' K q) {z : List Frame} (hcalls : b.calls ≠ [])
    (hb : (plug z b).Fits true .program) (hk : c.kind.isMember = b.kind.isMember)
    (h : ∀ m, b.found w m ⊆ c.found w' m) (m : Bool) :
    (plug z b).found w m ⊆ (plug z c).found w' m := by
  induction z generalizing b c with
  | nil => exact h m
  | cons f z ih =>
    have hregular : f.Regular := hb.regular f List.mem_cons_self
    have hfollowed : f.Followed b := followed_of_fits [] hb
    refine ih (calls_plug_ne_nil (z := [f]) hcalls) hb rfl fun m n hn => ?_
    rw [mem_found_fill] at hn ⊢
    rcases hn with ⟨hm, hcall, rfl⟩ | ⟨ls, d, rs, he, hn⟩ | hn | ⟨ls, d, rs, he, hn⟩
    · exact .inl ⟨hm, (isPlainCall_fill hk f).trans hcall, rfl⟩
    · exact .inr (.inl ⟨ls, d, rs, he, found_mono hw.step (hw.step.tells fun h => h) hn⟩)
    · exact .inr (.inr (.inl (found_mono hw.after (hw.step.tells fun h => h) (h _ hn))))
    · refine .inr (.inr (.inr ⟨ls, d, rs, he, found_mono hw.step (fun htold => ?_) hn⟩))
      cases hlist : f.tag.kind.isStatementList with
      | true => rwa [hw.settled'.list _ _ _ hlist, ← hw.settled.list _ _ _ hlist]
      | false =>
        exfalso
        cases ha : f.tag.kind.isAround with
        | true =>
          rw [hw.shuts ha hcalls hfollowed m ls d rs he] at htold
          cases htold
        | false =>
          rw [hw.behind (by simp) ha hlist fun x hx => ?_] at htold
          · cases htold
          · rw [(hregular.alone (.inr ⟨x, hx⟩)).2] at he
            cases ls <;> cases he

/-- What is found in a statement of a list stays found when it is found in the statements that take
its place. -/
theorem Follows.spot (hw : Follows w w' K q) {p : Spot} (hp : p.tag.kind.isStatementList = true)
    (hcalls : a.calls ≠ []) (hb : (plug (p.around []) a).Fits true .program)
    (h : a.found w q ⊆ ds.flatMap (Branch.found w' q) ++ c.found w' q) (m : Bool) :
    (plug (p.around []) a).found w m ⊆ (plug (p.around ds) c).found w' m := by
  have hlist : ∀ {v : Walk}, v.Settled q → ∀ (es : List Branch) (d : Branch) (m : Bool) (n : NodeId),
      n ∈ (Frame.fill ⟨p.tag, p.before ++ es, p.behind⟩ d).found v m ↔
        ∃ o ∈ p.before ++ es ++ d :: p.behind, n ∈ o.found v q := by
    intro v hv es d m n
    rw [Frame.fill, found_node, mem_foundIn]
    have hcall : (Branch.node p.tag (p.before ++ es ++ d :: p.behind)).isPlainCall = false := by
      rw [Branch.isPlainCall, decide_eq_false, Bool.false_and]
      intro hk
      rw [hk] at hp
      cases hp
    constructor
    · rintro (⟨-, hfalse, -⟩ | ⟨ls, o, rs, he, hn⟩)
      · dsimp only at hfalse
        rw [hcall] at hfalse
        cases hfalse
      · rw [hv.list _ _ _ hp] at hn
        exact ⟨o, by rw [he]; simp, hn⟩
    · rintro ⟨o, ho, hn⟩
      obtain ⟨ls, rs, he⟩ := List.append_of_mem ho
      exact .inr ⟨ls, o, rs, he, by rwa [hv.list _ _ _ hp]⟩
  refine hw.exchange (z := p.outer) (b := Frame.fill ⟨p.tag, p.before ++ [], p.behind⟩ a)
    (c := Frame.fill ⟨p.tag, p.before ++ ds, p.behind⟩ c)
    (calls_plug_ne_nil (z := [⟨p.tag, p.before ++ [], p.behind⟩]) hcalls) hb rfl
    (fun m n hn => ?_) m
  rw [hlist hw.settled] at hn
  rw [hlist hw.settled']
  obtain ⟨o, ho, hn⟩ := hn
  have hkeep : n ∈ o.found w' q := found_mono hw.step (fun h => h) hn
  simp only [List.append_nil, List.mem_append, List.mem_cons] at ho ⊢
  rcases ho with ho | rfl | ho
  · exact ⟨o, .inl (.inl ho), hkeep⟩
  · rcases List.mem_append.mp (h hn) with hd | hc
    · obtain ⟨d, hmem, hd⟩ := List.mem_flatMap.mp hd
      exact ⟨d, .inl (.inr hmem), hd⟩
    · exact ⟨c, .inr (.inl rfl), hc⟩
  · exact ⟨o, .inr (.inr ho), hkeep⟩

end Statements

section Turn

variable {w' : Walk} {site : Site} {s s' : Supply} {es : List Branch}

/-- A member has at most one key. -/
theorem Branch.Fits.length_le {loose : Bool} {slot : Slot} (h : b.Fits loose slot)
    (hm : b.kind.isMember = true) : b.children.length ≤ 2 := by
  obtain ⟨tag, cs⟩ := b
  obtain ⟨-, slots, hparts, -⟩ := Branch.fits_node.mp h
  rw [Branch.kind_node] at hm
  rw [Branch.children_node]
  rcases cs with _ | ⟨c, _ | ⟨d, _ | ⟨o, cs⟩⟩⟩
  · simp
  · simp
  · simp
  · exfalso
    cases hk : tag.kind <;> rw [hk] at hparts hm <;> first
      | (cases hm; done)
      | cases hparts

/-- What is found in a program is found after what is evaluated first in a statement was taken out,
if that goes for the expression of the statement. -/
theorem Follows.exposed (hw : Follows w w' K q) (hs : site.Rooted)
    (hp : ∀ f ∈ site.inner, f.Passable) (hb : (plug site.frames a).Fits true .program)
    (hcalls : a.calls ≠ []) (hm : c.kind.isMember = a.kind.isMember)
    (hc : (site.exposed s).2.constants ⊆ K)
    (hole : a.found w (along w q (site.inner ++ site.base)) ⊆ es.flatMap (Branch.found w' q) ++
      (plug (((Pass.start s).exposeFrames site.inner).1 ++ site.base) c).found w' q) (m : Bool) :
    (plug site.frames a).found w m ⊆
      (plug ((site.exposed s).1.behind es).frames c).found w' m := by
  have hregular : ∀ f ∈ site.inner, f.Regular := fun f hf => hb.regular f (by simp [Site.frames, hf])
  have hmembers : ∀ f ∈ site.inner, ∀ d ∈ f.left, d.kind.isMember = true →
      d.children.length ≤ 2 := by
    intro f hf d hd hmember
    obtain ⟨slot, -, hframed⟩ := framed_of_fits hb
    obtain ⟨j, before, hole, after, -, hleft⟩ := hframed.places f (by simp [Site.frames, hf])
    obtain ⟨place, -, hfits⟩ := exists_of_mem_forall₂ hleft hd
    exact hfits.length_le hmember
  obtain ⟨-, hall⟩ := Pass.exposeFrames_found hw (s := Pass.start s) rfl hregular hmembers hc
  rw [Site.frames_exposed, Site.frames, plug_append, plug_append (_ ++ site.base)]
  refine hw.spot hs.spot (calls_plug_ne_nil hcalls _) (by rwa [← plug_append]) ?_ m
  refine hs.retains hw hcalls hb (fun z₁ f z₂ he => ?_) fun n hn => ?_
  · have hf : f ∈ site.inner := by simp [he]
    refine ⟨fun htold hcall => ?_, fun d hd n hn => ?_, (hall f hf).2⟩
    · obtain ⟨left, hsame, hplain⟩ := (((Pass.start s).exposeFrames z₁).2.exposure f).plainCall
        ((Pass.start s).exposeFrames_isMember z₁ hm) hcall
      rw [he, Pass.exposeFrames_append, Pass.exposeFrames, hsame, List.append_assoc]
      have hleads := (Pass.leads_exposeFrames (Pass.start s) z₁)
      refine found_own (f := ⟨f.tag, left, f.right⟩) hplain (hw.along_exposed hs _
        (fun g hg => hs.inner g (by simp [he, hg])) (fun g hg => hp g (by simp [he, hg])) ?_ ?_ htold)
      · exact (((Pass.start s).exposeFrames z₁).2.exposure f).leads.effects (hleads.effects rfl)
      · have hlast := hc
        rw [Site.exposed, he, Pass.exposeFrames_append] at hlast
        exact hlast
    · rw [List.flatMap_append]
      exact List.mem_append_left _ ((hall f hf).1 d hd hn)
  · rw [List.flatMap_append, List.append_assoc]
    exact List.mem_append_right _ (hole hn)

/-- What is found in a conditional is found in its `if`. -/
theorem Follows.choosing (hw : Follows w w' K q) {f : Frame} (hr : f.Regular)
    (hf : f.isSometimes = true) (size : Nat) (result : Option String)
    (h : n ∈ (f.fill a).found w e) (hm : w' = freeing K → m = true) :
    n ∈ (f.choosing size result a).1.found w' m := by
  obtain ⟨-, hlen⟩ := Step.operands_of_regular hr hf
  have hchoice : f.tag.kind.isChoice = true := (Bool.and_eq_true _ _ ▸ hf).1
  have hkind : f.tag.kind ≠ .call ∧ f.tag.kind.isAround = true ∧ f.tag.kind.name? = none := by
    cases hk : f.tag.kind <;> rw [hk] at hchoice <;> first
      | (cases hchoice; done)
      | exact ⟨by simp, rfl, rfl⟩
  rw [Frame.fill] at h
  rcases found_node.mp h with ⟨-, hcall, -⟩ | h
  · rw [Branch.isPlainCall, decide_eq_false hkind.1] at hcall
    cases hcall
  · obtain ⟨ls, o, rs, he, ho⟩ := mem_foundIn.mp h
    have hmem : o ∈ f.left ++ a :: f.right := by simp [he]
    rcases hw.parts with ⟨rfl, -⟩ | hname
    · exact found_choosing (e := true) hw.after (fun _ => rfl) (hlen a) hmem
        (found_mono hw.step (fun _ => rfl) ho) fun _ => hm rfl
    · refine found_choosing (e := false) (K := K) hw.after (fun he => by cases he) (hlen a) hmem
        (found_mono hw.step (fun htold => ?_) ho) fun he => by cases he
      obtain ⟨hsome, -⟩ := hname _ _ _ hkind.2.1 htold
      rw [hkind.2.2] at hsome
      cases hsome

/-- Every step of the work on a call keeps what is found in a program. -/
theorem Turn.found {x : Branch} {moved : Bool} (h : Turn x moved b s c s')
    (hw : Follows w w' s'.constants q) (hx : x.kind = .call) (hb : b.Fits true .program)
    (m : Bool) : b.found w m ⊆ c.found w' m := by
  cases h with
  | expose site supply rooted regular always =>
    have hbehind : (site.exposed s).1.behind [] = (site.exposed s).1 := by simp [Site.behind]
    have hp : ∀ f ∈ site.inner, f.Passable := fun f hf =>
      (regular f hf).passable (rooted.inner f hf) (always f hf)
    rw [← hbehind]
    refine hw.exposed rooted hp hb (calls_ne_nil hx) rfl (fun y hy => hy) (fun n hn => ?_) m
    refine List.mem_append_right _ (found_plug (found_mono hw.step (fun htold => ?_) hn))
    exact hw.along_exposed rooted _ rooted.inner hp rfl (fun y hy => hy) htold
  | decide site below f supply rooted regular around sometimes always needed =>
    rw [plug_append_cons] at hb ⊢
    obtain ⟨hown, hinner⟩ := List.forall_mem_cons.mp regular
    have hp : ∀ g ∈ site.inner, g.Passable := fun g hg =>
      (hinner g hg).passable (rooted.inner g hg) (always g hg)
    have hchoice : f.tag.kind.isChoice = true := (Bool.and_eq_true _ _ ▸ sometimes).1
    have hmember : f.tag.kind.isMember = false := by
      cases hk : f.tag.kind <;> rw [hk] at hchoice <;> first | rfl | cases hchoice
    have hcalls : (f.fill (plug below x)).calls ≠ [] :=
      calls_plug_ne_nil (z := [f]) (calls_plug_ne_nil (calls_ne_nil hx) below)
    have hname : ∀ (id : NodeId) (y : String) (span : Span),
        (Branch.madeName id y span).kind.isMember = (f.fill (plug below x)).kind.isMember :=
      fun id y span => by
        rw [Frame.kind_fill, hmember]
        rfl
    refine hw.exposed rooted hp hb hcalls (hname _ _ _) (fun y hy => hy) (fun n hn => ?_) m
    refine List.mem_append_left _ (List.mem_flatMap.mpr ⟨_, List.mem_cons_of_mem _ List.mem_cons_self,
      hw.choosing hown sometimes _ _ hn hw.told⟩)
  | rewrite site below f supply rooted regular around sometimes inner right root =>
    have hwhole : plug (below ++ f :: site.frames) x = plug (site.spot.around [])
        (plug site.base (f.fill (plug below x))) := by
      rw [plug_append_cons, Site.frames, inner, List.nil_append, plug_append]
    have hcalls : (f.fill (plug below x)).calls ≠ [] :=
      calls_plug_ne_nil (z := [f]) (calls_plug_ne_nil (calls_ne_nil hx) below)
    have hempty : ∀ g ∈ site.base, g.left = [] ∧ g.right = [] := by
      refine List.forall_mem_cons.mpr ⟨⟨rfl, right⟩, fun g hg => ?_⟩
      exact (hb.regular g (List.mem_append_right _ (List.mem_cons_of_mem _
        (Site.mem_frames_of_labels hg)))).alone (.inr (rooted.labels g hg))
    rw [hwhole, Site.rewritten, plug_append site.labels]
    refine hw.spot rooted.spot (calls_plug_ne_nil hcalls _) (hwhole ▸ hb) (fun n hn => ?_) m
    have hshuts : ∀ z₁ g z₂, site.base = z₁ ++ g :: z₂ →
        g.Shuts w (plug z₁ (f.fill (plug below x))) := by
      intro z₁ g z₂ he m ls r rs hright
      rw [(hempty g (by simp [he])).2] at hright
      cases ls <;> cases hright
    rcases found_around hw.before hshuts hn with hn | ⟨z₁, g, z₂, he, hcase⟩
    · refine found_plug (hw.choosing regular sometimes _ _ hn fun hfree => ?_)
      rw [hfree, along_labels rooted.labels]
      exact hw.told hfree
    · have hg : g ∈ site.base := by simp [he]
      rw [isPlainCall_base rooted hg, (hempty g hg).1, (hempty g hg).2] at hcase
      simp at hcase
  | relocate site supply rooted regular free =>
    have hwhole : plug site.frames x =
        plug (site.spot.around []) (plug (site.inner ++ site.base) x) := plug_append _ _ _
    have hmember : (Branch.madeName s.size s.valueName x.span).kind.isMember = x.kind.isMember := by
      rw [hx]
      rfl
    rw [Site.relocated, Site.frames_behind, plug_append (_ ++ site.base), hwhole]
    refine hw.spot rooted.spot (calls_plug_ne_nil (calls_ne_nil hx) _) (hwhole ▸ hb) ?_ m
    refine rooted.retains hw (calls_ne_nil hx) hb (fun z₁ f z₂ he => ?_) fun n hn => ?_
    · have hf : f ∈ site.inner := by simp [he]
      refine ⟨fun htold hcall => ?_, fun d hd n hn => ?_, fun d hd => ⟨f, hf, hd⟩⟩
      · rw [he, List.append_assoc]
        exact found_own ((isPlainCall_fill (isMember_plug hmember z₁) f).trans hcall)
          (along_mono hw.step (fun h => h) _ htold)
      · refine absurd ?_ (calls_of_found hn)
        rcases (regular f hf).free (free f hf) with hall | ⟨-, tag, y, hleft, hk⟩
        · exact Branch.calls_of_unalterable (hall d hd)
        · rw [hleft, List.mem_singleton] at hd
          rw [hd, Branch.calls_node, Tag.invocation_eq_nil (by rw [hk]; rfl)]
          rfl
    · refine List.mem_append_left _ ?_
      rw [List.flatMap_singleton]
      exact found_declaring hw.settled' (found_mono hw.step (fun _ => rfl) hn) _ _

/-- The work on calls keeps the calls that nothing keeps from being moved. -/
theorem Run.found_freeing (h : Run b s c s') (hb : b.Fits true .program) (m : Bool) :
    b.found (freeing s.constants) m ⊆ c.found (freeing s'.constants) m := by
  induction h with
  | refl => exact fun n hn => hn
  | step turn call _ ih =>
    exact List.Subset.trans
      (turn.found (follows_freeing turn.grows.constants) call hb m) (ih (turn.fits call hb))

/-- The work on calls keeps the calls that are whole statements and initial values. -/
theorem Run.found_standing (h : Run b s c s') (hb : b.Fits true .program) (m : Bool) :
    b.found standing m ⊆ c.found standing m := by
  induction h with
  | refl => exact fun n hn => hn
  | step turn call _ ih =>
    exact List.Subset.trans (turn.found follows_standing call hb m) (ih (turn.fits call hb))

end Turn

end Hoist
