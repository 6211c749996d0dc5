import Hoist.Proofs.Choosing
import Hoist.Proofs.Turning

namespace Hoist

variable {p : String} {n : Nat} {loose : Bool}

/-- Whether what stands in a place is evaluated with what is around it. -/
def Slot.isOperand : Slot → Bool
  | .expression | .value | .target => true
  | _ => false

theorem Branch.Tame.all_core {b : Branch} (h : b.Tame p n) : b.All Kind.isCore := by
  induction h with
  | node core _ _ _ _ ih => exact all_branch.mpr ⟨core, ih⟩

section Places

/-- The operands of an operation are evaluated with it. -/
theorem Kind.parts_isOperand {k : Kind} {j : Nat} {slots : List Slot} (h : k.isOperation = true)
    (hp : k.parts j = some slots) : ∀ slot ∈ slots, slot.isOperand = true := by
  cases k
  case call =>
    rcases j with _ | j
    · cases hp
    · obtain rfl := Option.some.inj hp
      intro slot hs
      rw [List.eq_of_mem_replicate hs]
      rfl
  all_goals first
    | (cases h; done)
    | (rcases j with _ | _ | _ | _ | j <;> cases hp <;> simp [Slot.isOperand])

theorem Slot.isOperation_of_admits {slot : Slot} {k : Kind} {j : Nat} (hs : slot.isOperand = true)
    (ha : slot.admits loose k j = true) (hk : k.isCore = true) : k.isOperation = true := by
  cases slot
  case expression | value | target =>
    cases k <;> first
      | (cases hk; done)
      | (cases ha; done)
      | exact Bool.and_eq_true_iff.mpr ⟨hk, rfl⟩
  all_goals cases hs

/-- An operation is made of operations. -/
theorem Branch.Fits.all_operation {b : Branch} {slot : Slot} (h : b.Fits loose slot)
    (hc : b.All Kind.isCore) (hk : b.kind.isOperation = true) : b.All Kind.isOperation := by
  induction b using Branch.induct generalizing slot with
  | node tag cs ih =>
    obtain ⟨-, slots, hp, hcs⟩ := Branch.fits_node.mp h
    obtain ⟨hown, hparts⟩ := all_branch.mp hc
    refine all_branch.mpr ⟨hk, fun c hm => ?_⟩
    obtain ⟨place, hplace, hfits⟩ := exists_of_mem_forall₂ hcs hm
    have hoperand := Kind.parts_isOperand hk hp place hplace
    refine ih c hm hfits (hparts c hm) ?_
    obtain ⟨own, below⟩ := c
    exact Slot.isOperation_of_admits hoperand (Branch.fits_node.mp hfits).1
      (all_branch.mp (hparts _ hm)).1

/-- Around a branch that is no target every assignment has its target before the branch. -/
theorem Framed.assigned {slot : Slot} {z : List Frame} (h : Framed loose slot z)
    (hs : slot ≠ .target) (hc : ∀ f ∈ z, f.tag.kind.isCore = true) :
    ∀ f ∈ z, f.tag.kind.assignsFirst = true →
      (f.tag.kind = .assign ∨ ∃ op, f.tag.kind = .assignOp op) ∧ f.left ≠ [] := by
  induction h with
  | top => simp
  | @inside f z slot around before after admits parts left right outer ih =>
    obtain ⟨hf, hz⟩ := List.forall_mem_cons.mp hc
    have haround : around ≠ .target := by
      rintro rfl
      rw [Nat.add_right_comm] at admits
      cases hk : f.tag.kind <;> rw [hk] at hf admits <;> first
        | (cases hf; done)
        | cases admits
    refine List.forall_mem_cons.mpr ⟨fun ha => ?_, ih haround hz⟩
    generalize f.left.length + 1 + f.right.length = j at parts
    have hassign : f.tag.kind = .assign ∨ (∃ op, f.tag.kind = .assignOp op) → f.left ≠ [] := by
      intro hk hl
      rw [hl] at left
      obtain rfl := List.forall₂_nil_right_iff.mp left
      rcases hk with hk | ⟨op, hk⟩ <;> rw [hk] at parts <;>
        rcases j with _ | _ | _ | j <;> cases parts <;> exact hs rfl
    cases hk : f.tag.kind with
    | assign => exact ⟨.inl rfl, hassign (.inl hk)⟩
    | assignOp op => exact ⟨.inr ⟨op, rfl⟩, hassign (.inr ⟨op, hk⟩)⟩
    | increment isDecrement isPostfix =>
      rw [hk] at parts
      rcases j with _ | _ | j
      · cases parts
      · cases before with
        | nil =>
          cases parts
          exact absurd rfl hs
        | cons => simp [Kind.parts] at parts
      · cases parts
    | _ => rw [hk] at ha; cases ha

end Places

/-- The nodes around a branch that is always evaluated in its statement. -/
theorem Site.passed {s : Site} {b : Branch} (hs : s.Rooted) (hr : ∀ f ∈ s.inner, f.Regular)
    (ha : ∀ f ∈ s.inner, f.isSometimes = false) (hb : b.kind.isTarget = false)
    (hfits : (plug s.frames b).Fits loose .program) (ht : (plug s.frames b).Tame p n) :
    b.Tame p n ∧ (∀ f ∈ s.frames, f.Tame p n) ∧ ∀ f ∈ s.inner, f.Passed p n := by
  obtain ⟨slot, hslot, hframed⟩ := framed_of_fits hfits
  have hcore : ∀ f ∈ s.frames, f.All Kind.isCore := (all_plug.mp ht.all_core).1
  have htarget : slot ≠ .target := by
    rintro rfl
    obtain ⟨tag, cs⟩ := b
    have hadmits := (Branch.fits_node.mp hslot).1
    rw [Slot.admits, show tag.kind.isTarget = false from hb] at hadmits
    cases hadmits
  have hassigned := hframed.assigned htarget fun f hf => (hcore f hf).kind
  obtain ⟨hframes, htame⟩ := tame_of_plug ht fun f hf h => (hassigned f hf h).2
  refine ⟨htame, hframes, fun f hf => ?_⟩
  have hmem : f ∈ s.frames := by
    rw [Site.frames, List.append_assoc]
    exact List.mem_append_left _ hf
  have hlevel := (Bool.and_eq_true _ _ ▸ hs.inner f hf).1
  have hoperation : f.tag.kind.isOperation = true :=
    Bool.and_eq_true_iff.mpr ⟨(hcore f hmem).kind, hlevel⟩
  refine ⟨hframes f hmem, hoperation, fun c hc => ?_, fun hsel => ?_, fun hk => ?_,
    fun isDecrement isPostfix hk => ?_⟩
  · obtain ⟨j, before, hole, after, hparts, hleft⟩ := hframed.places f hmem
    obtain ⟨place, hplace, hc'⟩ := exists_of_mem_forall₂ hleft hc
    have hoperand := Kind.parts_isOperand hoperation hparts place (List.mem_append_left _ hplace)
    have hall := (hcore f hmem).left c hc
    refine hc'.all_operation hall ?_
    obtain ⟨tag, cs⟩ := c
    exact Slot.isOperation_of_admits hoperand (Branch.fits_node.mp hc').1 (all_branch.mp hall).1
  · have hchoice : f.tag.kind.isChoice = true := by
      cases hk : f.tag.kind <;> rw [hk] at hsel hlevel <;> first
        | rfl
        | (cases hsel; done)
        | cases hlevel
    have hnever := ha f hf
    rw [Frame.isSometimes, hchoice, Bool.true_and, Bool.not_eq_false', List.isEmpty_iff] at hnever
    exact hnever
  · have hfirst : f.tag.kind.assignsFirst = true := by
      rcases hk with hk | ⟨op, hk⟩ <;> rw [hk] <;> rfl
    obtain ⟨target, form, hleft, hright, hform⟩ := (hr f hf).assignment hk (hassigned f hmem hfirst).2
    have hall := (hcore f hmem).left target (by rw [hleft]; simp)
    cases hform with
    | name h => exact ⟨_, _, hleft, hright, h, rfl⟩
    | property h | element h =>
      have hkind := (all_branch.mp hall).1
      rw [h] at hkind
      cases hkind
  · have hfirst : f.tag.kind.assignsFirst = true := by rw [hk]; rfl
    rcases (hassigned f hmem hfirst).1 with he | ⟨op, he⟩ <;> rw [he] at hk <;> cases hk

section Making

variable {x : String} {b : Branch}

theorem tame_madeName (h : Known p n x) (id : NodeId) (span : Span) :
    (Branch.madeName id x span).Tame p n := by
  refine .node rfl rfl (fun y hy => ?_) nofun (by simp)
  obtain rfl := Kind.name.inj hy
  exact h

theorem tame_declaring (h : Known p n x) (hb : b.Tame p n) (first : NodeId) :
    (Branch.declaring first x b).Tame p n := by
  refine .node rfl rfl nofun nofun
    (List.forall_mem_singleton.mpr ?_)
  refine .node rfl rfl (fun y hy => ?_) nofun (List.forall_mem_singleton.mpr hb)
  obtain rfl := Kind.name.inj hy
  exact h

variable {size : Nat} {result : Option String} {span : Span}

theorem tame_resulting (hx : ∀ x, result = some x → Known p n x ∧ ∀ k, x ≠ constantAt p k)
    (hb : b.Tame p n) : (b.resulting size result span).1.Tame p n := by
  cases result with
  | none => exact hb
  | some x =>
    obtain ⟨hknown, hconstant⟩ := hx x rfl
    refine .node rfl rfl nofun (fun _ k he => hconstant k ?_)
      (List.forall_mem_cons.mpr ⟨tame_madeName hknown _ _, List.forall_mem_singleton.mpr hb⟩)
    exact Option.some.inj he

theorem tame_resultStatement (hx : ∀ x, result = some x → Known p n x ∧ ∀ k, x ≠ constantAt p k)
    (hb : b.Tame p n) : (b.resultStatement size result span).1.Tame p n :=
  .node rfl rfl nofun nofun
    (List.forall_mem_singleton.mpr (tame_resulting hx hb))

theorem tame_made {kind : Kind} {id : NodeId} {cs : List Branch} (hk : kind = .if_ ∨ kind = .block)
    (hc : ∀ c ∈ cs, c.Tame p n) : (Branch.made id kind span cs).Tame p n := by
  rcases hk with rfl | rfl <;>
    exact .node rfl rfl nofun nofun hc

/-- The `if` of a tame conditional is tame. -/
theorem tame_choosing {op : ConditionalOp} {operands : List Branch}
    (hx : ∀ x, result = some x → Known p n x ∧ ∀ k, x ≠ constantAt p k)
    (ho : ∀ b ∈ operands, b.Tame p n) :
    (Branch.choosing size result span op operands).1.Tame p n := by
  have hblock : ∀ {j : Nat} {id : NodeId} {b : Branch}, b ∈ operands →
      (Branch.made id .block span [(b.resultStatement j result span).1]).Tame p n := fun hb =>
    tame_made (.inr rfl) (List.forall_mem_singleton.mpr (tame_resultStatement hx (ho _ hb)))
  unfold Branch.choosing
  split
  · refine tame_made (.inl rfl) (List.forall_mem_cons.mpr ⟨ho _ (by simp), ?_⟩)
    exact List.forall_mem_cons.mpr ⟨hblock (by simp), List.forall_mem_singleton.mpr (hblock (by simp))⟩
  · refine tame_made (.inl rfl) (List.forall_mem_cons.mpr ⟨tame_resulting hx (ho _ (by simp)), ?_⟩)
    exact List.forall_mem_singleton.mpr (hblock (by simp))
  · refine tame_made (.inl rfl) (List.forall_mem_cons.mpr ⟨tame_resulting hx (ho _ (by simp)), ?_⟩)
    exact List.forall_mem_cons.mpr ⟨tame_made (.inr rfl) (by simp),
      List.forall_mem_singleton.mpr (hblock (by simp))⟩
  · exact tame_made (.inr rfl) ho

end Making

namespace Pass

variable {s r : Pass}

/-- Everything that a pass took out is tame. -/
def TakesTame (p : String) (s : Pass) : Prop := ∀ d ∈ s.taken, d.Tame p s.supply.nextId

theorem takeIfNeeded_ready (b : Branch) (hs : s.Ready p n) : (s.takeIfNeeded b).2.Ready p n := by
  rw [takeIfNeeded]
  split
  · exact hs.next
  · exact hs

theorem takeAll_ready (o : List Branch) (hs : s.Ready p n) : (s.takeAll o).2.Ready p n := by
  induction o with
  | nil => exact hs
  | cons b o ih => exact takeIfNeeded_ready b ih

theorem takeIfNeeded_tame {b : Branch} (hs : s.Ready p n) (ht : s.TakesTame p) (hb : b.Tame p n) :
    (s.takeIfNeeded b).1.Tame p (s.takeIfNeeded b).2.supply.nextId ∧
      (s.takeIfNeeded b).2.TakesTame p := by
  have hstarted := hs.started
  rw [takeIfNeeded]
  split
  · have hknown : Known p (s.supply.nextId + 1) s.supply.constantName := by
      rw [constantName_eq hs]
      exact known_constantAt (Nat.lt_succ_self _)
    refine ⟨tame_madeName hknown _ _, List.forall_mem_cons.mpr ⟨?_, fun d hd => ?_⟩⟩
    · exact tame_declaring hknown (hb.mono (Nat.le_succ_of_le hstarted)) _
    · exact (ht d hd).mono (Nat.le_succ _)
  · exact ⟨hb.mono hstarted, ht⟩

theorem takeAll_tame {o : List Branch} (hs : s.Ready p n) (ht : s.TakesTame p)
    (ho : ∀ b ∈ o, b.Tame p n) :
    (∀ b ∈ (s.takeAll o).1, b.Tame p (s.takeAll o).2.supply.nextId) ∧
      (s.takeAll o).2.TakesTame p := by
  induction o with
  | nil => exact ⟨by simp [takeAll], ht⟩
  | cons b o ih =>
    obtain ⟨hb, ho⟩ := List.forall_mem_cons.mp ho
    obtain ⟨hrest, ht'⟩ := ih ho
    obtain ⟨hfirst, ht''⟩ := takeIfNeeded_tame (takeAll_ready o hs) ht' hb
    have hgrows := (leads_takeIfNeeded (s.takeAll o).2 b).supply.nextId
    exact ⟨List.forall_mem_cons.mpr ⟨hfirst, fun c hc => (hrest c hc).mono hgrows⟩, ht''⟩

/-- What becomes of a tame node when what it evaluates first is taken out is tame. -/
theorem Exposure.tame {f : Frame} {gs : List Frame} (h : s.Exposure f gs r) (hf : f.Passed p n)
    (hs : s.Ready p n) (ht : s.TakesTame p) :
    (∀ g ∈ gs, g.Tame p r.supply.nextId ∧ g.tag.kind ≠ .var) ∧ r.TakesTame p ∧ r.Ready p n := by
  have hv := hf.kind_ne_var
  have hmono := hf.tame.mono (Nat.le_trans hs.started h.leads.supply.nextId)
  cases h with
  | first => exact ⟨List.forall_mem_singleton.mpr ⟨hmono, hv⟩, ht, hs⟩
  | left tag first rest right hassign hcompound =>
    obtain ⟨hleft, ht'⟩ := takeAll_tame hs ht hf.tame.left
    refine ⟨List.forall_mem_singleton.mpr ⟨⟨hmono.core, hmono.plain, hmono.name, fun ha => ?_,
      hleft, hmono.right⟩, hv⟩, ht', takeAll_ready _ hs⟩
    exfalso
    cases hk : tag.kind with
    | assign => exact hassign hk
    | assignOp op => exact hcompound op hk
    | increment isDecrement isPostfix => exact hf.increment _ _ hk
    | _ => rw [hk] at ha; cases ha
  | target tag target rest right hk =>
    obtain ⟨rfl, -, own, x, rfl, hx⟩ := hf.target (.inl hk)
    exact ⟨List.forall_mem_singleton.mpr ⟨hmono, hv⟩, ht, hs⟩
  | compound tag op target rest right hk =>
    obtain ⟨rfl, rfl, own, x, rfl, hx⟩ := hf.target (.inr ⟨op, hk⟩)
    obtain ⟨-, hconstant, hread⟩ := hf.target_read hs hk hx
    have htarget : (Branch.node own []).Tame p (s.supply.nextId + 1) :=
      (hf.tame.left _ List.mem_cons_self).mono (Nat.le_succ_of_le hs.started)
    have hcopy : (Branch.node { own with id := s.supply.size } []).Tame p (s.supply.nextId + 1) := by
      cases htarget with
      | node core plain name target parts => exact .node core plain name target parts
    have hname : Known p (s.supply.nextId + 1) (s.supply.grow 3).constantName := by
      rw [show (s.supply.grow 3).constantName = _ from constantName_eq hs]
      exact known_constantAt (Nat.lt_succ_self _)
    rw [splitCompound_name s tag own op hread]
    have hnext := hs.next (b := .node own [])
    refine ⟨?_, List.forall_mem_cons.mpr ⟨tame_declaring hname hcopy _, fun d hd => ?_⟩,
      ⟨rfl, hnext.tempPrefix, hnext.constants, hnext.started⟩⟩
    · refine List.forall_mem_cons.mpr ⟨⟨⟨rfl, rfl, nofun, nofun,
        List.forall_mem_singleton.mpr (tame_madeName hname _ _), by simp⟩, by simp⟩, ?_⟩
      refine List.forall_mem_singleton.mpr ⟨⟨rfl, rfl, nofun, fun _ => ?_,
        List.forall_mem_singleton.mpr htarget, by simp⟩, by simp⟩
      refine ⟨by simp, fun k he => hconstant k ?_⟩
      have hfirst : firstName [Branch.node own []] = some x := congrArg Kind.name? hx
      exact Option.some.inj (hfirst.symm.trans he)
    · exact (ht d hd).mono (Nat.le_succ _)
  | callee tag callee rest right hk =>
    obtain ⟨hcallee, hrest⟩ := List.forall_mem_cons.mp hf.tame.left
    obtain ⟨hleft, ht'⟩ := takeAll_tame hs ht hrest
    refine ⟨List.forall_mem_singleton.mpr ⟨⟨hmono.core, hmono.plain, hmono.name, fun ha => ?_,
      List.forall_mem_cons.mpr ⟨hmono.left _ List.mem_cons_self, hleft⟩, hmono.right⟩, hv⟩, ht',
      takeAll_ready _ hs⟩
    rw [hk] at ha
    cases ha
  | method tag part object keys rest right hk hm =>
    rw [hf.isMember_eq_false] at hm
    cases hm

/-- What becomes of tame nodes when what they evaluate first is taken out is tame. -/
theorem exposeFrames_tame {z : List Frame} (hz : ∀ f ∈ z, f.Passed p n) (hs : s.Ready p n)
    (ht : s.TakesTame p) :
    (∀ g ∈ (s.exposeFrames z).1, g.Tame p (s.exposeFrames z).2.supply.nextId ∧
      g.tag.kind ≠ .var) ∧ (s.exposeFrames z).2.TakesTame p ∧ (s.exposeFrames z).2.Ready p n := by
  induction z generalizing s with
  | nil => exact ⟨by simp [exposeFrames], ht, hs⟩
  | cons f z ih =>
    obtain ⟨hf, hz⟩ := List.forall_mem_cons.mp hz
    obtain ⟨hgs, ht', hs'⟩ := (s.exposure f).tame hf hs ht
    obtain ⟨hrest, hend⟩ := ih hz hs' ht'
    have hgrows := (leads_exposeFrames (s.exposeFrame f).2 z).supply.nextId
    refine ⟨fun g hg => ?_, hend⟩
    rcases List.mem_append.mp hg with hg | hg
    · exact ⟨(hgs g hg).1.mono hgrows, (hgs g hg).2⟩
    · exact hrest g hg

end Pass

end Hoist
