import Hoist.Proofs.Walks

namespace Hoist

variable {w w' : Walk} {m q : Bool} {n : NodeId} {b c : Branch} {K : List String}

theorem Kind.of_isMember {k : Kind} (h : k.isMember = true) : k.isAround = true ∧
    k.isChoice = false ∧ (∀ op, k ≠ .assignOp op) ∧ k.name? = none := by
  obtain ⟨x, rfl⟩ | rfl := Kind.property_or_element h <;>
    exact ⟨rfl, rfl, fun _ he => Kind.noConfusion he, rfl⟩

/-- What is declared in a list is told so. -/
theorem found_declaring (hw : w.Settled q) (h : n ∈ b.found w true) (first : NodeId) (x : String) :
    n ∈ (Branch.declaring first x b).found w q := by
  have hplug : Branch.declaring first x b = plug [⟨⟨first, .name x, b.span, false⟩, [], []⟩,
      ⟨⟨first + 1, .var, b.span, false⟩, [], []⟩] b := rfl
  rw [hplug]
  refine found_plug ?_
  have htold : along w q [⟨⟨first, .name x, b.span, false⟩, [], []⟩,
      ⟨⟨first + 1, .var, b.span, false⟩, [], []⟩] = true := hw.declared _ _ rfl rfl
  rw [htold]
  exact h

namespace Pass

variable {s r : Pass}

/-- What is found in the declarations of what was taken out. -/
def found (w : Walk) (q : Bool) (s : Pass) : List NodeId := s.taken.flatMap (Branch.found w q)

theorem takeIfNeeded_found (hw : w.Le w') (hs : w'.Settled q) (he : s.effects = true) (b : Branch) :
    s.found w' q ⊆ (s.takeIfNeeded b).2.found w' q ∧
      b.found w true ⊆ (s.takeIfNeeded b).2.found w' q := by
  rw [takeIfNeeded, Branch.mustPrecede, if_pos he]
  cases ha : b.isAlterable s.supply.constants with
  | false => exact ⟨fun n hn => hn, fun n hn => absurd (Branch.calls_of_unalterable ha) (calls_of_found hn)⟩
  | true =>
    rw [if_pos rfl]
    refine ⟨fun n hn => List.mem_append_right _ hn, fun n hn => List.mem_append_left _ ?_⟩
    exact found_declaring hs (found_mono hw (fun _ => rfl) hn) _ _

theorem takeAll_found (hw : w.Le w') (hs : w'.Settled q) (he : s.effects = true)
    (o : List Branch) : s.found w' q ⊆ (s.takeAll o).2.found w' q ∧
      ∀ c ∈ o, c.found w true ⊆ (s.takeAll o).2.found w' q := by
  induction o with
  | nil => exact ⟨fun n hn => hn, by simp⟩
  | cons c o ih =>
    obtain ⟨hrest, hall⟩ := ih
    obtain ⟨hkept, hc⟩ := takeIfNeeded_found hw hs ((leads_takeAll s o).effects he) c
    exact ⟨fun n hn => hkept (hrest hn), List.forall_mem_cons.mpr
      ⟨hc, fun d hd n hn => hkept (hall d hd hn)⟩⟩

theorem takeParts_found (hw : w.Le w') (hb : w.Le w) (hs : w'.Settled q) (he : s.effects = true)
    {form : TargetForm} {target : Branch} (ht : target.Target form) :
    s.found w' q ⊆ (s.takeParts target).2.found w' q ∧
      target.found w true ⊆ (s.takeParts target).2.found w' q := by
  obtain ⟨tag, cs⟩ := target
  obtain ⟨hkept, hall⟩ := takeAll_found hw hs he cs
  refine ⟨hkept, fun n hn => ?_⟩
  rcases found_node.mp hn with ⟨-, hcall, -⟩ | hn
  · exfalso
    rw [Branch.isPlainCall, Bool.and_eq_true, decide_eq_true_iff] at hcall
    cases ht with
    | name h | property h | element h => exact Kind.noConfusion (hcall.1.symm.trans h)
  · obtain ⟨ls, c, rs, rfl, hc⟩ := mem_foundIn.mp hn
    exact hall c (by simp) (found_mono hb (fun _ => rfl) hc)

/-- What is found in a member whose object and keys were parted. -/
theorem splitMethodCall_found (hw : Follows w w' K q) {tag part : Tag} {object : Branch}
    {keys arguments right : List Branch} (hm : part.kind.isMember = true) (hk : keys.length ≤ 1)
    (hc : (s.splitMethodCall tag (.node part (object :: keys)) object keys arguments
      right).2.supply.constants ⊆ K) :
    s.found w' q ⊆ (s.splitMethodCall tag (.node part (object :: keys)) object keys arguments
        right).2.found w' q ∧
      (Branch.node part (object :: keys)).found w true ⊆
        (s.splitMethodCall tag (.node part (object :: keys)) object keys arguments
          right).2.found w' q := by
  refine ⟨fun n hn => List.mem_append_right _ (List.mem_append_right _ hn), fun n hn => ?_⟩
  rcases found_node.mp hn with ⟨-, hcall, -⟩ | hn
  · exfalso
    rw [Branch.isPlainCall, Bool.and_eq_true, decide_eq_true_iff] at hcall
    rw [hcall.1] at hm
    cases hm
  · obtain ⟨ls, c, rs, he, hfound⟩ := mem_foundIn.mp hn
    cases ls with
    | nil =>
      obtain ⟨rfl, rfl⟩ := List.cons.inj he
      refine List.mem_append_left _ (found_declaring hw.settled' ?_ _ _)
      exact found_mono hw.step (fun _ => rfl) hfound
    | cons first ls =>
      obtain ⟨rfl, hkeys⟩ := List.cons.inj he
      obtain ⟨rfl, rfl⟩ : ls = [] ∧ rs = [] := by
        have hlength := congrArg List.length hkeys
        simp only [List.append_eq, List.length_append, List.length_cons] at hlength
        exact ⟨List.eq_nil_of_length_eq_zero (by omega), List.eq_nil_of_length_eq_zero (by omega)⟩
      obtain rfl : keys = [c] := hkeys
      refine List.mem_append_right _ (List.mem_append_left _ (found_declaring hw.settled' ?_ _ _))
      refine found_node.mpr (.inr (mem_foundIn.mpr ⟨[_], c, [], rfl, ?_⟩))
      refine found_mono hw.step (fun htold => ?_) hfound
      obtain ⟨haround, hchoice, hcompound, hname⟩ := Kind.of_isMember hm
      rcases hw.parts with ⟨rfl, -⟩ | hnone
      · rw [Branch.tag_node, freeing_around haround, Bool.true_and, Bool.not_eq_true']
        exact holdsBack_of_unalterable hchoice hcompound (List.forall_mem_singleton.mpr
          (Branch.isAlterable_mono hc (isAlterable_madeName (Supply.constantName_mem _) _ _)))
      · have hsome := (hnone true part _ haround htold).1
        rw [hname] at hsome
        cases hsome

theorem splitCompound_found (hw : w.Le w') (hb : w.Le w) (hs : w'.Settled q)
    (he : s.effects = true) {form : TargetForm} {target : Branch} (ht : target.Target form)
    (tag : Tag) (op : BinaryOp) : s.found w' q ⊆ (s.splitCompound tag target op).2.found w' q ∧
      target.found w true ⊆ (s.splitCompound tag target op).2.found w' q := by
  obtain ⟨-, hparts⟩ := takeParts_found hw hb hs
    (show ({ s with taken := [] } : Pass).effects = true from he) ht
  rw [splitCompound]
  dsimp only
  split
  · refine ⟨fun n hn => ?_, fun n hn => ?_⟩
    · rw [found, List.flatMap_append, List.flatMap_cons]
      exact List.mem_append_right _ (List.mem_append_right _ hn)
    · rw [found, List.flatMap_append]
      exact List.mem_append_left _ (hparts hn)
  · refine ⟨fun n hn => ?_, fun n hn => ?_⟩
    · rw [found, List.flatMap_append]
      exact List.mem_append_right _ hn
    · rw [found, List.flatMap_append]
      exact List.mem_append_left _ (hparts hn)

/-- What is found in the parts of a node is found when they were taken out, or stays behind the
branch. -/
theorem Exposure.found {f : Frame} {gs : List Frame} (h : s.Exposure f gs r)
    (hw : Follows w w' K q) (he : s.effects = true) (hr : f.Regular)
    (hm : ∀ c ∈ f.left, c.kind.isMember = true → c.children.length ≤ 2)
    (hc : r.supply.constants ⊆ K) : s.found w' q ⊆ r.found w' q ∧
      (∀ c ∈ f.left, c.found w true ⊆ r.found w' q) ∧ ∀ c ∈ f.right, ∃ g ∈ gs, c ∈ g.right := by
  cases h with
  | first => exact ⟨fun n hn => hn, by simp, by simp⟩
  | left tag first rest right =>
    obtain ⟨hkept, hall⟩ := takeAll_found hw.step hw.settled' he (first :: rest)
    exact ⟨hkept, hall, by simp⟩
  | target tag target rest right hk =>
    obtain ⟨rfl, -, form, ht⟩ := hr.target (.inl hk)
    obtain ⟨hkept, htarget⟩ := takeParts_found hw.step hw.before hw.settled' he ht
    exact ⟨hkept, List.forall_mem_singleton.mpr htarget, by simp⟩
  | compound tag op target rest right hk =>
    obtain ⟨rfl, rfl, form, ht⟩ := hr.target (.inr ⟨op, hk⟩)
    obtain ⟨hkept, htarget⟩ := splitCompound_found hw.step hw.before hw.settled' he ht tag op
    exact ⟨hkept, List.forall_mem_singleton.mpr htarget, by simp⟩
  | callee tag callee rest right hk hn =>
    rw [(leads_takeAll s rest).effects he, Branch.mustPrecede, if_pos rfl] at hn
    obtain ⟨hkept, hall⟩ := takeAll_found hw.step hw.settled' he rest
    exact ⟨hkept, List.forall_mem_cons.mpr ⟨fun n hmem =>
      absurd (Branch.calls_of_unalterable hn) (calls_of_found hmem), hall⟩, by simp⟩
  | method tag part object keys rest right hk hmember =>
    obtain ⟨hkept, hall⟩ := takeAll_found hw.step hw.settled' he rest
    have hkeys : keys.length ≤ 1 := by
      have hlength := hm _ List.mem_cons_self hmember
      rw [Branch.children_node, List.length_cons] at hlength
      omega
    obtain ⟨hsplit, hcallee⟩ := splitMethodCall_found hw hmember hkeys hc
    exact ⟨fun n hn => hsplit (hkept hn), List.forall_mem_cons.mpr
      ⟨hcallee, fun c hd n hn => hsplit (hall c hd hn)⟩, by simp [splitMethodCall]⟩

/-- A call of something that is no member stays one. -/
theorem Exposure.plainCall {f : Frame} {gs : List Frame} (h : s.Exposure f gs r) {b c : Branch}
    (hm : c.kind.isMember = b.kind.isMember) (hf : (f.fill b).isPlainCall = true) :
    ∃ left, gs = [⟨f.tag, left, f.right⟩] ∧
      (Frame.fill ⟨f.tag, left, f.right⟩ c).isPlainCall = true := by
  have hcall : f.tag.kind = .call := by
    rw [Frame.fill, Branch.isPlainCall, Bool.and_eq_true, decide_eq_true_iff] at hf
    exact hf.1
  rw [Frame.fill, Branch.isPlainCall, decide_eq_true hcall, Bool.true_and, Bool.not_eq_true'] at hf
  have hplain : ∀ left, startsWithMember (left ++ c :: f.right) = false →
      (Frame.fill ⟨f.tag, left, f.right⟩ c).isPlainCall = true := fun left hl => by
    rw [Frame.fill, Branch.isPlainCall, hcall]
    simpa using hl
  cases h with
  | first tag right =>
    refine ⟨[], rfl, hplain [] ?_⟩
    simpa [startsWithMember, hm] using hf
  | left tag first rest right =>
    refine ⟨_, rfl, hplain _ ?_⟩
    refine eq_false_of_ne_true fun hmember => ?_
    have hfirst := s.takeAll_startsWithMember (first :: rest)
      (by simpa [takeAll, startsWithMember] using hmember)
    have hnot : startsWithMember (first :: rest) = false := by simpa [startsWithMember] using hf
    rw [hnot] at hfirst
    cases hfirst
  | target tag target rest right hk => exact Kind.noConfusion (hcall.symm.trans hk)
  | compound tag op target rest right hk => exact Kind.noConfusion (hcall.symm.trans hk)
  | callee tag callee rest right hk =>
    refine ⟨_, rfl, hplain _ ?_⟩
    simpa [startsWithMember] using hf
  | method tag part object keys rest right hk hmember =>
    simp [startsWithMember, Branch.kind, Branch.tag, hmember] at hf

theorem Exposure.isMember {f : Frame} {gs : List Frame} (h : s.Exposure f gs r) (b : Branch) :
    (plug gs b).kind.isMember = f.tag.kind.isMember := by
  cases h with
  | compound tag op target rest right hk =>
    rw [hk, splitCompound]
    dsimp only
    split
    · rfl
    · simp [Kind.isMember, hk]
  | method tag part object keys rest right hk =>
    rw [hk]
    rfl
  | _ => rfl

theorem exposeFrames_isMember (s : Pass) (z : List Frame) {b c : Branch}
    (h : c.kind.isMember = b.kind.isMember) :
    (plug (s.exposeFrames z).1 c).kind.isMember = (plug z b).kind.isMember := by
  induction z generalizing s b c with
  | nil => exact h
  | cons f z ih =>
    rw [exposeFrames, plug_append, plug_cons]
    exact ih _ ((s.exposure f).isMember c)

theorem exposeFrames_found (hw : Follows w w' K q) {z : List Frame} (he : s.effects = true)
    (hr : ∀ f ∈ z, f.Regular)
    (hm : ∀ f ∈ z, ∀ c ∈ f.left, c.kind.isMember = true → c.children.length ≤ 2)
    (hc : (s.exposeFrames z).2.supply.constants ⊆ K) :
    s.found w' q ⊆ (s.exposeFrames z).2.found w' q ∧
      ∀ f ∈ z, (∀ c ∈ f.left, c.found w true ⊆ (s.exposeFrames z).2.found w' q) ∧
        ∀ c ∈ f.right, ∃ g ∈ (s.exposeFrames z).1, c ∈ g.right := by
  induction z generalizing s with
  | nil => exact ⟨fun n hn => hn, by simp⟩
  | cons f z ih =>
    obtain ⟨hregular, hr⟩ := List.forall_mem_cons.mp hr
    obtain ⟨hmember, hm⟩ := List.forall_mem_cons.mp hm
    have hleads := (s.exposure f).leads
    have hmore := (leads_exposeFrames (s.exposeFrame f).2 z).supply.constants
    obtain ⟨hkept, hleft, hright⟩ := (s.exposure f).found hw he hregular hmember
      fun x hx => hc (hmore hx)
    obtain ⟨hrest, hall⟩ := ih (hleads.effects he) hr hm hc
    refine ⟨fun n hn => hrest (hkept hn), List.forall_mem_cons.mpr ⟨⟨fun c hmem n hn =>
      hrest (hleft c hmem hn), fun c hmem => ?_⟩, fun g hg => ⟨(hall g hg).1, fun c hmem => ?_⟩⟩⟩
    · obtain ⟨g, hg, hcg⟩ := hright c hmem
      exact ⟨g, List.mem_append_left _ hg, hcg⟩
    · obtain ⟨e, he', hce⟩ := (hall g hg).2 c hmem
      exact ⟨e, List.mem_append_right _ he', hce⟩

end Pass

end Hoist
