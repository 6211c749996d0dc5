import Hoist.Proofs.Classifying
import Hoist.Proofs.Sweeping
import Mathlib

namespace Hoist

/-- How many nodes of a branch write when it runs. -/
def Branch.writing (b : Branch) : Nat := b.active.countP Kind.writes

/-- How many nodes of branches write when they run. -/
def allWriting (o : List Branch) : Nat := (o.map Branch.writing).sum

/-- How many nodes write before the branch in the place of a node. -/
def Frame.writing (f : Frame) : Nat := allWriting f.left

/-- How many nodes write before a branch in frames. -/
def framesWriting (z : List Frame) : Nat := (z.map Frame.writing).sum

@[simp] theorem allWriting_nil : allWriting [] = 0 := rfl

@[simp] theorem allWriting_cons (b : Branch) (o : List Branch) :
    allWriting (b :: o) = b.writing + allWriting o := List.sum_cons

@[simp] theorem framesWriting_nil : framesWriting [] = 0 := rfl

@[simp] theorem framesWriting_cons (f : Frame) (z : List Frame) :
    framesWriting (f :: z) = f.writing + framesWriting z := List.sum_cons

@[simp] theorem framesWriting_append (z gs : List Frame) :
    framesWriting (z ++ gs) = framesWriting z + framesWriting gs := by
  rw [framesWriting, List.map_append, List.sum_append]
  rfl

namespace Branch

theorem writing_eq_zero {b : Branch} : b.writing = 0 ↔ b.hasSideEffects = false := by
  simp [writing, List.countP_eq_zero, hasSideEffects, List.any_eq_false]

theorem writing_pos {b : Branch} (h : b.hasSideEffects = true) : 0 < b.writing :=
  Nat.pos_of_ne_zero fun hz => by rw [writing_eq_zero.mp hz] at h; cases h

theorem writing_node {tag : Tag} (cs : List Branch) (hw : tag.kind.writes = false)
    (hf : tag.kind.isFunction = false) : (node tag cs).writing = allWriting cs := by
  rw [writing, active, List.countP_cons_of_neg (by simp [hw]), hf, if_neg Bool.false_ne_true,
    List.countP_flatMap]
  rfl

@[simp] theorem writing_madeName (id : NodeId) (name : String) (span : Span) :
    (madeName id name span).writing = 0 := writing_node [] rfl rfl

theorem length_active_le (b : Branch) : b.active.length ≤ b.ids.length := by
  induction b using induct with
  | node tag cs ih =>
    rw [active, ids, List.length_cons, List.length_cons]
    split
    · exact Nat.succ_le_succ (Nat.zero_le _)
    · rw [List.length_flatMap, List.length_flatMap]
      exact Nat.succ_le_succ (List.sum_le_sum ih)

theorem writing_le (b : Branch) : b.writing ≤ b.ids.length :=
  Nat.le_trans List.countP_le_length b.length_active_le

/-- Only the parts of a target write. -/
theorem Target.writing {tag : Tag} {cs : List Branch} {form : TargetForm}
    (h : (node tag cs).Target form) (parts : List Branch) :
    (node tag parts).writing = allWriting parts := by
  cases h with
  | name h | property h | element h =>
    exact writing_node parts (by rw [h]; rfl) (by rw [h]; rfl)

end Branch

namespace Pass

variable {s r : Pass} {f : Frame} {gs : List Frame}

theorem takeIfNeeded_writing (s : Pass) (b : Branch) :
    (s.takeIfNeeded b).1.writing ≤ b.writing := by
  rw [takeIfNeeded]
  split
  · simp [takeOut]
  · exact Nat.le_refl _

theorem takeAll_writing (s : Pass) (o : List Branch) :
    allWriting (s.takeAll o).1 ≤ allWriting o := by
  induction o with
  | nil => exact Nat.le_refl _
  | cons b o ih =>
    rw [takeAll, allWriting_cons, allWriting_cons]
    exact Nat.add_le_add (takeIfNeeded_writing _ b) ih

theorem takeParts_writing (s : Pass) {target : Branch} {form : TargetForm}
    (ht : target.Target form) : (s.takeParts target).1.writing ≤ target.writing := by
  obtain ⟨tag, cs⟩ := target
  rw [takeParts, Branch.tag_node, ht.writing, ht.writing]
  exact s.takeAll_writing cs

/-- Only the arguments that stay write before a branch in a split method call. -/
theorem splitMethodCall_writing (s : Pass) (tag : Tag) (callee object : Branch)
    (keys arguments right : List Branch) :
    (s.splitMethodCall tag callee object keys arguments right).1.writing = allWriting arguments := by
  have hcall : ∀ id object, (Branch.made id (.property "call") tag.span [object]).writing =
      object.writing := fun _ object => Branch.writing_node [object] rfl rfl
  simp [splitMethodCall, Frame.writing, hcall]

/-- A pass leaves no more before a branch that writes than there was. -/
theorem Exposure.writing (h : s.Exposure f gs r) (hr : f.Regular) :
    framesWriting gs ≤ f.writing := by
  cases h with
  | first => exact Nat.le_refl _
  | left tag first rest right => exact s.takeAll_writing (first :: rest)
  | target tag target rest right kind =>
    obtain ⟨rfl, -, form, ht⟩ := hr.target (.inl kind)
    simpa [Frame.writing] using s.takeParts_writing ht
  | compound tag op target rest right kind =>
    obtain ⟨rfl, -, form, ht⟩ := hr.target (.inr ⟨op, kind⟩)
    have hparts := ({ s with taken := [] } : Pass).takeParts_writing ht
    rw [splitCompound]
    dsimp only
    split <;> simpa [Frame.writing] using hparts
  | callee tag callee rest right =>
    simpa [Frame.writing] using s.takeAll_writing rest
  | method tag part object keys rest right =>
    have hrest := s.takeAll_writing rest
    rw [framesWriting_cons, framesWriting_nil, splitMethodCall_writing, Frame.writing,
      allWriting_cons]
    omega

/-- Where nothing behind has side effects, a branch that writes nothing stays, and another is taken
out. -/
theorem takeIfNeeded_quiet (he : s.effects = false) (b : Branch) :
    ((s.takeIfNeeded b).2.effects = false ∧ b.writing = 0) ∨
      (s.takeIfNeeded b).1.writing < b.writing := by
  rw [takeIfNeeded, Branch.mustPrecede, he, if_neg Bool.false_ne_true]
  cases hb : b.hasSideEffects with
  | false => exact .inl ⟨he, Branch.writing_eq_zero.mpr hb⟩
  | true => exact .inr (by simpa [takeOut] using Branch.writing_pos hb)

theorem takeAll_quiet (he : s.effects = false) (o : List Branch) :
    ((s.takeAll o).2.effects = false ∧ allWriting o = 0) ∨
      allWriting (s.takeAll o).1 < allWriting o := by
  induction o with
  | nil => exact .inl ⟨he, rfl⟩
  | cons b o ih =>
    have hfirst := takeIfNeeded_writing (s.takeAll o).2 b
    rw [takeAll, allWriting_cons, allWriting_cons]
    rcases ih with ⟨heffects, hzero⟩ | hless
    · have hrest := s.takeAll_writing o
      rcases takeIfNeeded_quiet heffects b with ⟨hsame, hb⟩ | hb
      · exact .inl ⟨hsame, by omega⟩
      · exact .inr (by omega)
    · exact .inr (by omega)

theorem takeParts_quiet (he : s.effects = false) {target : Branch} {form : TargetForm}
    (ht : target.Target form) :
    ((s.takeParts target).2.effects = false ∧ target.writing = 0) ∨
      (s.takeParts target).1.writing < target.writing := by
  obtain ⟨tag, cs⟩ := target
  rw [takeParts, Branch.tag_node, ht.writing, ht.writing]
  exact takeAll_quiet he cs

/-- Where nothing behind has side effects, a node before whose branch nothing writes leaves it so,
and of what writes before another some is taken out. -/
theorem Exposure.quiet (h : s.Exposure f gs r) (hr : f.Regular) (he : s.effects = false) :
    (r.effects = false ∧ f.writing = 0) ∨ framesWriting gs < f.writing := by
  cases h with
  | first => exact .inl ⟨he, rfl⟩
  | left tag first rest right => exact takeAll_quiet he (first :: rest)
  | target tag target rest right kind =>
    obtain ⟨rfl, -, form, ht⟩ := hr.target (.inl kind)
    simpa [Frame.writing] using takeParts_quiet he ht
  | compound tag op target rest right kind =>
    obtain ⟨rfl, -, form, ht⟩ := hr.target (.inr ⟨op, kind⟩)
    have hle := ({ s with taken := [] } : Pass).takeParts_writing ht
    rw [splitCompound]
    dsimp only
    rcases takeParts_quiet (s := { s with taken := [] }) he ht with ⟨heffects, hzero⟩ | hless
    · have hwrites : (({ s with taken := [] } : Pass).takeParts target).1.hasSideEffects = false :=
        Branch.writing_eq_zero.mp (by omega)
      rw [if_neg (by simp [Branch.readMustPrecede, Branch.mustPrecede, heffects, hwrites])]
      exact .inl ⟨heffects, by simpa [Frame.writing] using hzero⟩
    · refine .inr ?_
      split <;> simpa [Frame.writing] using hless
  | callee tag callee rest right kind needless =>
    rcases takeAll_quiet he rest with ⟨heffects, hzero⟩ | hless
    · rw [Branch.mustPrecede, heffects, if_neg Bool.false_ne_true] at needless
      have hcallee := Branch.writing_eq_zero.mpr needless
      exact .inl ⟨heffects, by simp [Frame.writing, hcallee, hzero]⟩
    · exact .inr (by simpa [Frame.writing] using hless)
  | method tag part object keys rest right kind member needed =>
    have hrest := s.takeAll_writing rest
    refine .inr ?_
    rw [framesWriting_cons, framesWriting_nil, splitMethodCall_writing, Frame.writing,
      allWriting_cons]
    rcases takeAll_quiet he rest with ⟨heffects, hzero⟩ | hless
    · rw [Branch.mustPrecede, heffects, if_neg Bool.false_ne_true] at needed
      have hcallee := Branch.writing_pos needed
      omega
    · omega

theorem exposeFrames_writing (s : Pass) {z : List Frame} (hr : ∀ f ∈ z, f.Regular) :
    framesWriting (s.exposeFrames z).1 ≤ framesWriting z := by
  induction z generalizing s with
  | nil => exact Nat.le_refl _
  | cons f z ih =>
    obtain ⟨hf, hz⟩ := List.forall_mem_cons.mp hr
    rw [exposeFrames, framesWriting_append, framesWriting_cons]
    exact Nat.add_le_add ((s.exposure f).writing hf) (ih _ hz)

/-- Where nothing behind has side effects, something of what writes before a branch is taken out. -/
theorem exposeFrames_quiet {z : List Frame} (hr : ∀ f ∈ z, f.Regular) (he : s.effects = false) :
    framesWriting z = 0 ∨ framesWriting (s.exposeFrames z).1 < framesWriting z := by
  induction z generalizing s with
  | nil => exact .inl rfl
  | cons f z ih =>
    obtain ⟨hf, hz⟩ := List.forall_mem_cons.mp hr
    have hfirst := (s.exposure f).writing hf
    have hrest := (s.exposeFrame f).2.exposeFrames_writing hz
    rw [exposeFrames, framesWriting_append, framesWriting_cons]
    rcases (s.exposure f).quiet hf he with ⟨heffects, hzero⟩ | hless
    · rcases ih hz heffects with hnone | hmore
      · exact .inl (by omega)
      · exact .inr (by omega)
    · exact .inr (by omega)

/-- A pass adds no node that evaluates a branch only sometimes. -/
theorem Exposure.always (h : s.Exposure f gs r) (hf : f.isSometimes = false) :
    ∀ g ∈ gs, g.isSometimes = false := by
  have hkind : f.left ≠ [] → f.tag.kind.isChoice = false := fun hl => by
    simpa [Frame.isSometimes, hl] using hf
  have hchoice : ∀ g : Frame, g.tag.kind.isChoice = false → g.isSometimes = false := fun g hg => by
    rw [Frame.isSometimes, hg, Bool.false_and]
  cases h with
  | first => exact List.forall_mem_singleton.mpr hf
  | compound tag op target =>
    rw [splitCompound]
    dsimp only
    split
    · exact List.forall_mem_cons.mpr ⟨hchoice _ rfl, List.forall_mem_singleton.mpr (hchoice _ rfl)⟩
    · exact List.forall_mem_singleton.mpr (hchoice _ (hkind (by simp)))
  | method => exact List.forall_mem_singleton.mpr (hchoice _ rfl)
  | _ => exact List.forall_mem_singleton.mpr (hchoice _ (hkind (by simp)))

theorem exposeFrames_always (s : Pass) {z : List Frame} (h : ∀ f ∈ z, f.isSometimes = false) :
    ∀ g ∈ (s.exposeFrames z).1, g.isSometimes = false := by
  induction z generalizing s with
  | nil => simp [exposeFrames]
  | cons f z ih =>
    obtain ⟨hf, hz⟩ := List.forall_mem_cons.mp h
    exact fun g hg => (List.mem_append.mp hg).elim ((s.exposure f).always hf g) (ih _ hz g)

end Pass

namespace Tree

variable {t : Tree} {o : List Branch}

/-- Where nothing behind has side effects, a node before whose branch nothing writes holds nothing
back, but for an operand that is evaluated only sometimes. -/
theorem Holds.holdsBack_quiet {f : Frame} {z : List Frame} {b : Branch}
    (h : t.Holds (plug (f :: z) b :: o)) (hs : f.isSometimes = false) (hw : f.writing = 0)
    (constants : List String) : t.holdsBack constants false f.tag.id b.id = false := by
  obtain ⟨tag, left, right⟩ := f
  cases left with
  | nil => exact h.holdsBack_first constants false
  | cons first rest =>
    have hquiet : ∀ c ∈ first :: rest, t.hasSideEffects c.id = false := by
      intro c hc
      obtain ⟨ls, rs, hl⟩ := List.append_of_mem hc
      have hfill : plug (⟨tag, first :: rest, right⟩ :: z) b =
          plug (⟨tag, ls, rs ++ b :: right⟩ :: z) c := by
        simp [Frame.fill, hl]
      rw [hfill] at h
      rw [h.hasSideEffects]
      refine Branch.writing_eq_zero.mp ?_
      rw [Frame.writing, hl] at hw
      simp [allWriting] at hw
      omega
    have hconditional := isSometimes_frame h
    rw [hs] at hconditional
    have hfirst : t.firstChild tag.id = some first.id := h.firstChild_frame
    have hbefore : t.childrenBefore tag.id b.id = _ := h.takeWhile_children 0 (Nat.zero_le _)
    rw [Tree.holdsBack]
    split
    · rename_i op hrole
      rw [Tree.isConditional, hrole] at hconditional
      simpa using hconditional
    · rfl
    · rename_i form op hrole
      rw [hfirst]
      cases form <;> simp [Tree.readMustPrecede, Tree.mustPrecede, hquiet first List.mem_cons_self]
    · rw [hbefore, List.any_eq_false]
      simpa [Tree.mustPrecede] using hquiet

/-- Where an expression without side effects is always evaluated and nothing writes before it, its
path is free. -/
theorem Holds.isPathFree_quiet {inner z : List Frame} {b : Branch}
    (h : t.Holds (plug (inner ++ z) b :: o)) (hs : ∀ f ∈ inner, f.isSometimes = false)
    (hw : framesWriting inner = 0) (constants : List String) :
    t.isPathFree constants false b.id (frameTags inner) = true := by
  induction inner generalizing b with
  | nil => rfl
  | cons f inner ih =>
    obtain ⟨hf, hrest⟩ := List.forall_mem_cons.mp hs
    rw [framesWriting_cons] at hw
    rw [frameTags, List.map_cons, Tree.isPathFree,
      Tree.Holds.holdsBack_quiet h hf (by omega)]
    exact ih (b := f.fill b) h hrest (by omega)

end Tree

end Hoist
