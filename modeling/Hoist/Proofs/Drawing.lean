import Hoist.Proofs.Rooms
import Hoist.Proofs.Turns

namespace Hoist

namespace Branch

/-- Something about a node that an expression has when one of its parts has it, or one of its calls
has it of itself. -/
structure Spread (n : NodeId) (own : Tag → Prop) (P : Branch → Prop) : Prop where
  node {tag : Tag} {cs : List Branch} (around : tag.kind.isAround = true) :
    P (.node tag cs) ↔ own tag ∨ ∃ c ∈ cs, P c
  own {tag : Tag} : own tag → tag.kind = .call ∧ n = tag.id
  mem {b : Branch} : P b → n ∈ b.ids

/-- A branch is made of what another holds, where new nodes are named from a size on. -/
structure Draws (size : Nat) (c b : Branch) : Prop where
  keeps {n : NodeId} {own : Tag → Prop} {P : Branch → Prop} : n < size → Spread n own P → P c → P b

end Branch

section Spread

variable {n p q : NodeId} {o : Bool} {K : List String}

theorem spread_direct (n : NodeId) :
    Branch.Spread n (fun tag => tag.kind = .call ∧ n = tag.id) (fun b => n ∈ b.direct) where
  node h := Branch.direct_node (Kind.isShared_of_around h)
  own h := h
  mem h := Branch.direct_subset _ h

theorem spread_houses (o : Bool) (p q : NodeId) :
    Branch.Spread p (fun _ => False) (fun b => b.Houses true o p q) where
  node h := by rw [houses_around h, false_or]
  own h := h.elim
  mem h := h.mem_ids

theorem spread_found (K : List String) (n : NodeId) :
    Branch.Spread n (fun _ => False) (fun b => n ∈ b.found (freeing K) false) where
  node h := by rw [found_false_around h, false_or]
  own h := h.elim
  mem h := found_subset _ _ _ h

end Spread

namespace Branch

variable {size k : Nat} {tag : Tag} {a b c : Branch} {cs cs' : List Branch} {f : Frame} {z : List Frame}

theorem Draws.refl (b : Branch) : b.Draws size b := ⟨fun _ _ h => h⟩

theorem Draws.trans (h : Draws size c b) (h' : Draws size b a) : Draws size c a :=
  ⟨fun hn hs hc => h'.keeps hn hs (h.keeps hn hs hc)⟩

mutual

theorem le_of_mem_renumber (first : Nat) (b : Branch) {n : Nat}
    (h : n ∈ (b.renumber first).ids) : first ≤ n := by
  match b with
  | .node tag cs =>
    rw [renumber, ids, List.mem_cons] at h
    rcases h with rfl | h
    · exact Nat.le_refl _
    · exact Nat.le_of_succ_le (le_of_mem_renumberAll (first + 1) cs h)

theorem le_of_mem_renumberAll (first : Nat) (cs : List Branch) {n : Nat}
    (h : n ∈ (renumberAll first cs).flatMap ids) : first ≤ n := by
  match cs with
  | [] => cases h
  | c :: cs =>
    rw [renumberAll, List.flatMap_cons, List.mem_append] at h
    rcases h with h | h
    · exact le_of_mem_renumber first c h
    · exact Nat.le_trans (Nat.le_add_right _ _) (le_of_mem_renumberAll (first + c.ids.length) cs h)

end

/-- New nodes hold nothing old. -/
theorem draws_renumber (h : size ≤ k) (c b : Branch) : Draws size (c.renumber k) b where
  keeps hn hs hc :=
    absurd (Nat.le_trans h (le_of_mem_renumber k c (hs.mem hc))) (Nat.not_le_of_lt hn)

/-- A new name holds nothing. -/
theorem draws_madeName (id : NodeId) (x : String) (span : Span) (b : Branch) :
    Draws size (.madeName id x span) b where
  keeps _ hs h := by
    rcases (hs.node rfl).mp h with hown | ⟨c, hc, -⟩
    · cases (hs.own hown).1
    · cases hc

/-- An expression holds what its parts hold. -/
theorem draws_part (h : tag.kind.isAround = true) (hc : c ∈ cs) : Draws size c (.node tag cs) where
  keeps _ hs hP := (hs.node h).mpr (.inr ⟨c, hc, hP⟩)

/-- What is no old call itself holds what its parts are made of. -/
theorem draws_whole (h : tag.kind.isAround = true) (hown : tag.kind ≠ .call ∨ size ≤ tag.id)
    (hcs : ∀ c ∈ cs, Draws size c b) : Draws size (.node tag cs) b where
  keeps hn hs hP := by
    rcases (hs.node h).mp hP with ho | ⟨c, hc, hP⟩
    · obtain ⟨hk, rfl⟩ := hs.own ho
      rcases hown with hk' | hid
      · exact absurd hk hk'
      · exact absurd hid (Nat.not_le_of_lt hn)
    · exact (hcs c hc).keeps hn hs hP

/-- An expression holds what it held when its parts are made of that. -/
theorem draws_parts (h : tag.kind.isAround = true)
    (hcs : ∀ c ∈ cs', Draws size c (.node tag cs)) :
    Draws size (.node tag cs') (.node tag cs) where
  keeps hn hs hP := by
    rcases (hs.node h).mp hP with ho | ⟨c, hc, hP⟩
    · exact (hs.node h).mpr (.inl ho)
    · exact (hcs c hc).keeps hn hs hP

theorem draws_fill (h : f.tag.kind.isAround = true) : Draws size b (f.fill b) :=
  draws_part h (by simp)

theorem draws_plug (h : ∀ f ∈ z, f.tag.kind.isAround = true) : Draws size b (plug z b) := by
  induction z generalizing b with
  | nil => exact .refl b
  | cons f z ih =>
    obtain ⟨hf, hz⟩ := List.forall_mem_cons.mp h
    exact (draws_fill hf).trans (ih hz)

/-- The nodes around an expression hold what they held when it is made of what it was. -/
theorem Draws.plug (h : Draws size c b) (hz : ∀ f ∈ z, f.tag.kind.isAround = true) :
    Draws size (Hoist.plug z c) (Hoist.plug z b) := by
  induction z generalizing b c with
  | nil => exact h
  | cons f z ih =>
    obtain ⟨hf, hz⟩ := List.forall_mem_cons.mp hz
    refine ih (draws_parts hf fun d hd => ?_) hz
    rcases List.mem_append.mp hd with hd | hd
    · exact draws_part hf (by simp [hd])
    · rcases List.mem_cons.mp hd with rfl | hd
      · exact h.trans (draws_fill hf)
      · exact draws_part hf (by simp [hd])

end Branch

namespace Pass

open Branch

variable {s r : Pass} {size : Nat} {a b c : Branch} {f : Frame} {gs z : List Frame}

/-- Whatever was taken out since an earlier pass is declared, and was part of a branch. -/
def TakesFrom (size : Nat) (s r : Pass) (b : Branch) : Prop :=
  ∀ d ∈ r.taken, d ∈ s.taken ∨ ∃ first name v, d = .declaring first name v ∧ Draws size v b

theorem TakesFrom.refl (s : Pass) (b : Branch) : s.TakesFrom size s b := fun _ h => .inl h

theorem TakesFrom.trans {q : Pass} (h : s.TakesFrom size r b) (h' : r.TakesFrom size q b) :
    s.TakesFrom size q b := by
  intro d hd
  rcases h' d hd with hd | hd
  · exact h d hd
  · exact .inr hd

theorem TakesFrom.of_draws (h : s.TakesFrom size r c) (hc : Draws size c b) :
    s.TakesFrom size r b :=
  fun d hd => (h d hd).imp_right fun ⟨first, name, v, he, hv⟩ => ⟨first, name, v, he, hv.trans hc⟩

theorem takeIfNeeded_takes (s : Pass) (size : Nat) (b : Branch) :
    Draws size (s.takeIfNeeded b).1 b ∧ s.TakesFrom size (s.takeIfNeeded b).2 b := by
  rw [takeIfNeeded]
  split
  · refine ⟨draws_madeName _ _ _ _, fun d hd => ?_⟩
    rcases List.mem_cons.mp hd with rfl | hd
    · exact .inr ⟨_, _, b, rfl, .refl b⟩
    · exact .inl hd
  · exact ⟨.refl b, .refl s b⟩

theorem takeAll_takes (s : Pass) {o : List Branch} (h : ∀ c ∈ o, Draws size c b) :
    (∀ c ∈ (s.takeAll o).1, Draws size c b) ∧ s.TakesFrom size (s.takeAll o).2 b := by
  induction o with
  | nil => exact ⟨by simp [takeAll], .refl s b⟩
  | cons c o ih =>
    obtain ⟨hc, ho⟩ := List.forall_mem_cons.mp h
    obtain ⟨hrest, htaken⟩ := ih ho
    obtain ⟨hfirst, hmore⟩ := (s.takeAll o).2.takeIfNeeded_takes size c
    exact ⟨List.forall_mem_cons.mpr ⟨hfirst.trans hc, hrest⟩, htaken.trans (hmore.of_draws hc)⟩

theorem takeParts_takes (s : Pass) {target : Branch} (h : target.kind.isAround = true)
    (ht : Draws size target b) :
    Draws size (s.takeParts target).1 b ∧ s.TakesFrom size (s.takeParts target).2 b := by
  obtain ⟨tag, cs⟩ := target
  have hcs : ∀ c ∈ cs, Draws size c (.node tag cs) := fun c hc => draws_part h hc
  obtain ⟨hparts, htaken⟩ := s.takeAll_takes hcs
  exact ⟨(draws_parts h hparts).trans ht, htaken.of_draws ht⟩

theorem isAround_of_target {form : TargetForm} (h : b.Target form) : b.kind.isAround = true := by
  cases h with
  | name h => rw [Branch.kind_node, h]; rfl
  | property h => rw [Branch.kind_node, h]; rfl
  | element h => rw [Branch.kind_node, h]; rfl

/-- Other branches in the place of those in front of an expression, made of what a node holds. -/
theorem draws_left {left : List Branch} (hf : f.tag.kind.isAround = true) (hc : Draws size c b)
    (hleft : ∀ d ∈ left, Draws size d (f.fill b)) :
    Draws size (Frame.fill ⟨f.tag, left, f.right⟩ c) (f.fill b) := by
  refine draws_parts hf fun d hd => ?_
  rcases List.mem_append.mp hd with hd | hd
  · exact hleft d hd
  · rcases List.mem_cons.mp hd with rfl | hd
    · exact hc.trans (draws_fill hf)
    · exact draws_part hf (by simp [hd])

/-- A compound assignment that is split is made of what it held. -/
theorem splitCompound_draws (s : Pass) {tag : Tag} {op : BinaryOp} {target : Branch}
    (hf : tag.kind.isAround = true) (ht : target.kind.isAround = true) (hs : size ≤ s.supply.size)
    (hc : Draws size c b) :
    Draws size (plug (s.splitCompound tag target op).1 c) (Frame.fill ⟨tag, [target], []⟩ b) ∧
      s.TakesFrom size (s.splitCompound tag target op).2 (Frame.fill ⟨tag, [target], []⟩ b) := by
  let q : Pass := { s with taken := [] }
  have hpart : Draws size target (Frame.fill ⟨tag, [target], []⟩ b) := draws_part hf (by simp)
  obtain ⟨htarget, htaken⟩ := q.takeParts_takes ht hpart
  have hsize : size ≤ (q.takeParts target).2.supply.size :=
    Nat.le_trans hs (leads_takeAll q target.children).supply.size
  have hkeep : ∀ d ∈ (q.takeParts target).2.taken, d ∈ s.taken ∨ ∃ first name v,
      d = .declaring first name v ∧ Draws size v (Frame.fill ⟨tag, [target], []⟩ b) := fun d hd =>
    .inr ((htaken d hd).resolve_left List.not_mem_nil)
  rw [splitCompound]
  dsimp only
  split
  · refine ⟨?_, fun d hd => ?_⟩
    · refine draws_whole rfl (.inl (by simp)) (List.forall_mem_cons.mpr ⟨htarget,
        List.forall_mem_singleton.mpr (draws_whole rfl (.inl (by simp))
          (List.forall_mem_cons.mpr ⟨draws_madeName _ _ _ _, List.forall_mem_singleton.mpr ?_⟩))⟩)
      exact hc.trans (draws_part hf (by simp))
    · rcases List.mem_append.mp hd with hd | hd
      · exact hkeep d hd
      · rcases List.mem_cons.mp hd with rfl | hd
        · exact .inr ⟨_, _, _, rfl, draws_renumber hsize _ _⟩
        · exact .inl hd
  · refine ⟨draws_left (f := ⟨tag, [target], []⟩) hf hc (List.forall_mem_singleton.mpr htarget),
      fun d hd => ?_⟩
    exact (List.mem_append.mp hd).elim (hkeep d) .inl

/-- A method call that is split is made of what its parts are made of. -/
theorem splitMethodCall_draws {s : Pass} (tag : Tag) {part : Tag} {object a : Branch}
    {keys arguments right : List Branch} (hm : part.kind.isMember = true)
    (hs : size ≤ s.supply.size) (hcallee : ∀ d ∈ object :: keys, Draws size d a)
    (harguments : ∀ d ∈ arguments, Draws size d a) (hright : ∀ d ∈ right, Draws size d a)
    (hc : Draws size c a) :
    let split := s.splitMethodCall tag (.node part (object :: keys)) object keys arguments right
    Draws size (split.1.fill c) a ∧ s.TakesFrom size split.2 a := by
  obtain ⟨hobject, hkeys⟩ := List.forall_mem_cons.mp hcallee
  have hpart : part.kind.isAround = true ∧ part.kind ≠ .call := by
    obtain ⟨x, hk⟩ | hk := Kind.property_or_element hm <;> rw [hk] <;> exact ⟨rfl, by simp⟩
  refine ⟨draws_whole rfl (.inr ?_) (List.forall_mem_cons.mpr ⟨?_, List.forall_mem_cons.mpr
    ⟨draws_madeName _ _ _ _, fun d hd => ?_⟩⟩), fun d hd => ?_⟩
  · show size ≤ s.supply.size + 3 + 3 + 3
    omega
  · exact draws_whole rfl (.inl (by simp)) (List.forall_mem_singleton.mpr (draws_madeName _ _ _ _))
  · rcases List.mem_append.mp hd with hd | hd
    · exact harguments d hd
    · rcases List.mem_cons.mp hd with rfl | hd
      · exact hc
      · exact hright d hd
  · rcases List.mem_cons.mp hd with rfl | hd
    · exact .inr ⟨_, _, _, rfl, hobject⟩
    · rcases List.mem_cons.mp hd with rfl | hd
      · exact .inr ⟨_, _, _, rfl, draws_whole hpart.1 (.inl hpart.2)
          (List.forall_mem_cons.mpr ⟨draws_madeName _ _ _ _, hkeys⟩)⟩
      · exact .inl hd

/-- What a node becomes when what it evaluates first is taken out, and what is taken out, is made of
what the node holds. -/
theorem Exposure.draws (h : s.Exposure f gs r) (hf : f.tag.kind.isAround = true) (hr : f.Regular)
    (hs : size ≤ s.supply.size) (hc : Draws size c b) :
    Draws size (plug gs c) (f.fill b) ∧ s.TakesFrom size r (f.fill b) := by
  have hpart : ∀ {d}, d ∈ f.left ++ f.right → Draws size d (f.fill b) := fun {d} hd =>
    draws_part hf (by rcases List.mem_append.mp hd with hd | hd <;> simp [hd])
  cases h with
  | first tag right => exact ⟨draws_left hf hc (by simp), .refl _ _⟩
  | left tag first rest right =>
    have hall : ∀ d ∈ first :: rest, Draws size d _ := fun d hd =>
      hpart (List.mem_append_left _ hd)
    obtain ⟨hleft, htaken⟩ := s.takeAll_takes hall
    exact ⟨draws_left hf hc hleft, htaken⟩
  | target tag target rest right hk =>
    obtain ⟨rfl, -, form, ht⟩ := hr.target (.inl hk)
    obtain ⟨htarget, htaken⟩ := s.takeParts_takes (isAround_of_target ht) (hpart (by simp))
    exact ⟨draws_left hf hc (List.forall_mem_singleton.mpr htarget), htaken⟩
  | compound tag op target rest right hk =>
    obtain ⟨rfl, rfl, form, ht⟩ := hr.target (.inr ⟨op, hk⟩)
    exact s.splitCompound_draws hf (isAround_of_target ht) hs hc
  | callee tag callee rest right hk hn =>
    have hrest : ∀ d ∈ rest, Draws size d _ := fun d hd =>
      hpart (List.mem_append_left _ (List.mem_cons_of_mem _ hd))
    obtain ⟨hleft, htaken⟩ := s.takeAll_takes hrest
    exact ⟨draws_left hf hc (List.forall_mem_cons.mpr ⟨hpart (by simp), hleft⟩), htaken⟩
  | method tag part object keys rest right hk hm hn =>
    have hrest : ∀ d ∈ rest, Draws size d _ := fun d hd =>
      hpart (List.mem_append_left _ (List.mem_cons_of_mem _ hd))
    obtain ⟨hleft, htaken⟩ := s.takeAll_takes hrest
    have hpartAround : part.kind.isAround = true := by
      obtain ⟨x, hk⟩ | hk := Kind.property_or_element hm <;> rw [hk] <;> rfl
    have hcallee : ∀ d ∈ object :: keys, Draws size d
        (Frame.fill ⟨tag, .node part (object :: keys) :: rest, right⟩ b) := fun d hd =>
      (draws_part hpartAround hd).trans (hpart (by simp))
    have hsize := Nat.le_trans hs (leads_takeAll s rest).supply.size
    obtain ⟨hsplit, hmore⟩ := splitMethodCall_draws tag hm hsize hcallee hleft
      (fun d hd => hpart (List.mem_append_right _ hd)) (hc.trans (draws_fill hf))
    exact ⟨hsplit, htaken.trans hmore⟩

/-- What the nodes around an expression become when what they evaluate first is taken out, and what
is taken out, is made of what the nodes hold. -/
theorem exposeFrames_draws (s : Pass) (hz : ∀ f ∈ z, f.tag.kind.isAround = true)
    (hr : ∀ f ∈ z, f.Regular) (hs : size ≤ s.supply.size) (hc : Draws size c b) :
    Draws size (plug (s.exposeFrames z).1 c) (plug z b) ∧
      s.TakesFrom size (s.exposeFrames z).2 (plug z b) := by
  induction z generalizing s b c with
  | nil => exact ⟨hc, .refl s b⟩
  | cons f z ih =>
    obtain ⟨hf, hz⟩ := List.forall_mem_cons.mp hz
    obtain ⟨hregular, hr⟩ := List.forall_mem_cons.mp hr
    obtain ⟨hfirst, htaken⟩ := (s.exposure f).draws hf hregular hs hc
    have hsize := Nat.le_trans hs (s.exposure f).leads.supply.size
    obtain ⟨hrest, hmore⟩ := ih (s.exposeFrame f).2 hz hr hsize hfirst
    rw [exposeFrames, plug_append]
    exact ⟨hrest, (htaken.of_draws (draws_plug hz)).trans hmore⟩

end Pass

end Hoist
