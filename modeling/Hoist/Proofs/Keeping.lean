import Hoist.Proofs.Freeing

namespace Hoist

variable {loose : Bool}

theorem Slot.admits_value {k : Kind} {n : Nat} (h : k.isExpression n = true) :
    Slot.value.admits loose k n = true := by
  cases k <;> first | exact h | cases h

theorem Branch.Fits.value {b : Branch} (h : b.Fits loose .expression) : b.Fits loose .value := by
  obtain ⟨tag, cs⟩ := b
  rw [Branch.fits_node] at h ⊢
  exact ⟨Slot.admits_value h.1, h.2⟩

/-- In a loose program an entry can be declared. -/
theorem Branch.Fits.value_of_entry {b : Branch} (h : b.Fits true .entry) : b.Fits true .value := by
  obtain ⟨tag, cs⟩ := b
  rw [Branch.fits_node] at h ⊢
  refine ⟨?_, h.2⟩
  have ha := h.1
  cases hk : tag.kind <;> rw [hk] at ha <;>
    first | rfl | simp [Slot.admits, Kind.name?] at ha
  simp [Slot.admits, Kind.isExpression, Kind.isOperand, Kind.level?, ha]

theorem Branch.Fits.expression {b : Branch} (h : b.Fits loose .target) :
    b.Fits loose .expression := by
  obtain ⟨tag, cs⟩ := b
  rw [Branch.fits_node] at h ⊢
  exact ⟨(Bool.and_eq_true _ _ ▸ h.1).2, h.2⟩

theorem fits_madeName (id : NodeId) (name : String) (span : Span) :
    (Branch.madeName id name span).Fits loose .expression :=
  Branch.fits_node.mpr ⟨rfl, [], rfl, .nil⟩

theorem fits_declaring (first : NodeId) (name : String) {value : Branch}
    (h : value.Fits loose .value) : (Branch.declaring first name value).Fits loose .statement := by
  refine Branch.fits_node.mpr ⟨rfl, [.declarator], rfl, .cons ?_ .nil⟩
  exact Branch.fits_node.mpr ⟨rfl, [.value], rfl, .cons h .nil⟩

theorem shape_renumber (b : Branch) (first : NodeId) : (b.renumber first).shape = b.shape := by
  induction b using Branch.induct generalizing first with
  | node tag cs ih =>
    rw [Branch.renumber, Branch.shape, Branch.shape]
    congr 1
    generalize first + 1 = m
    induction cs generalizing m with
    | nil => rfl
    | cons c cs ih' =>
      rw [Branch.renumberAll, List.map_cons, List.map_cons, ih c List.mem_cons_self,
        ih' fun d hd => ih d (List.mem_cons_of_mem _ hd)]

theorem fits_renumber {b : Branch} {slot : Slot} (h : b.Fits loose slot) (first : NodeId) :
    (b.renumber first).Fits loose slot := by
  rwa [Branch.Fits, shape_renumber]

/-- The places in an expression other than an assignment are values, the entries of an object, or
the only one. -/
theorem Kind.parts_of_around {k : Kind} {n : Nat} {slots : List Slot}
    (h : k.parts n = some slots) (ha : k.isAround) (hassign : k ≠ .assign)
    (hcompound : ∀ op, k ≠ .assignOp op) :
    slots.length ≤ 1 ∨ ∀ s ∈ slots, s = .expression ∨ (s = .entry ∧ k = .object) := by
  cases k
  case assign => exact absurd rfl hassign
  case assignOp op => exact absurd rfl (hcompound op)
  case array =>
    obtain rfl := Option.some.inj h
    exact .inr fun s hs => .inl (List.eq_of_mem_replicate hs)
  case object =>
    obtain rfl := Option.some.inj h
    exact .inr fun s hs => .inr ⟨List.eq_of_mem_replicate hs, rfl⟩
  case call | new =>
    rcases n with _ | n
    · cases h
    · obtain rfl := Option.some.inj h
      exact .inr fun s hs => .inl (List.eq_of_mem_replicate hs)
  case script | block | expression | var | if_ | return_ | switch | case_ | default_ | label
    | while_ | doWhile | for_ | break_ | continue_ | throw | empty | function => cases ha
  all_goals
    rcases n with _ | _ | _ | _ | n <;> cases h <;> simp

theorem Kind.before_of_around {k : Kind} {n : Nat} {slot : Slot} {before after : List Slot}
    (h : k.parts n = some (before ++ slot :: after)) (ha : k.isAround) (hassign : k ≠ .assign)
    (hcompound : ∀ op, k ≠ .assignOp op) :
    ∀ s ∈ before, s = .expression ∨ (s = .entry ∧ k = .object) := by
  intro s hs
  rcases Kind.parts_of_around h ha hassign hcompound with hlen | hall
  · have hpos := List.length_pos_of_mem hs
    simp only [List.length_append, List.length_cons] at hlen
    omega
  · exact hall s (List.mem_append_left _ hs)

/-- The object of a member is an expression. -/
theorem Kind.object_of_member {k : Kind} {n : Nat} {slot : Slot} {slots : List Slot}
    (hk : k.isMember = true) (h : k.parts n = some (slot :: slots)) : slot = .expression := by
  cases k <;> cases hk
  · rcases n with _ | _ | n <;> cases h
    rfl
  · rcases n with _ | _ | _ | n <;> cases h
    rfl

namespace Pass

/-- Everything that a pass took out is a statement. -/
def TakesStatements (loose : Bool) (s : Pass) : Prop := ∀ d ∈ s.taken, d.Fits loose .statement

variable {s r : Pass}

theorem takeIfNeeded_fits {slot : Slot} {b : Branch} (hs : s.TakesStatements loose)
    (hb : b.Fits loose slot) (hslot : slot = .expression ∨ (slot = .entry ∧ loose = true)) :
    (s.takeIfNeeded b).1.Fits loose slot ∧ (s.takeIfNeeded b).2.TakesStatements loose := by
  rw [takeIfNeeded]
  split
  · refine ⟨?_, List.forall_mem_cons.mpr ⟨fits_declaring _ _ ?_, hs⟩⟩
    · rcases hslot with rfl | ⟨rfl, rfl⟩
      · exact fits_madeName _ _ _
      · exact Branch.fits_node.mpr ⟨rfl, [], rfl, .nil⟩
    · rcases hslot with rfl | ⟨rfl, rfl⟩
      · exact hb.value
      · exact hb.value_of_entry
  · exact ⟨hb, hs⟩

theorem takeAll_fits {slots : List Slot} {o : List Branch} (hs : s.TakesStatements loose)
    (hb : List.Forall₂ (Branch.Fits loose) slots o)
    (hslots : ∀ slot ∈ slots, slot = .expression ∨ (slot = .entry ∧ loose = true)) :
    List.Forall₂ (Branch.Fits loose) slots (s.takeAll o).1 ∧
      (s.takeAll o).2.TakesStatements loose := by
  induction hb with
  | nil => exact ⟨.nil, hs⟩
  | cons hb _ ih =>
    obtain ⟨hrest, ht⟩ := ih fun slot hm => hslots slot (List.mem_cons_of_mem _ hm)
    obtain ⟨hfirst, ht'⟩ := takeIfNeeded_fits ht hb (hslots _ List.mem_cons_self)
    exact ⟨.cons hfirst hrest, ht'⟩

/-- Branches that nothing can alter stay. -/
theorem takeAll_of_unalterable {o : List Branch} (he : s.effects = true)
    (hb : ∀ b ∈ o, b.isAlterable s.supply.constants = false) : s.takeAll o = (o, s) := by
  induction o with
  | nil => rfl
  | cons b o ih =>
    have hrest := ih fun c hc => hb c (List.mem_cons_of_mem _ hc)
    have hfirst := hb b List.mem_cons_self
    simp only [takeAll, hrest, takeIfNeeded, Branch.mustPrecede, if_pos he, hfirst,
      Bool.false_eq_true, if_false]

/-- Taking out what a target is made of leaves a target. -/
theorem takeParts_fits {target : Branch} (hs : s.TakesStatements loose)
    (ht : target.Fits loose .target) :
    (s.takeParts target).1.Fits loose .target ∧ (s.takeParts target).2.TakesStatements loose := by
  obtain ⟨form, hform⟩ := ht.target
  obtain ⟨tag, cs⟩ := target
  obtain ⟨ha, slots, hp, hcs⟩ := Branch.fits_node.mp ht
  have hslots : ∀ slot ∈ slots, slot = .expression := by
    cases hform with
    | name h =>
      rw [h] at hp
      obtain rfl := Option.some.inj hp
      simp
    | property h | element h =>
      rw [h] at hp
      obtain rfl := Option.some.inj hp
      simp
  obtain ⟨hparts, htaken⟩ := takeAll_fits hs hcs fun slot hm => .inl (hslots slot hm)
  refine ⟨Branch.fits_node.mpr ?_, htaken⟩
  have hlen := hparts.length_eq.symm.trans hcs.length_eq
  rw [show (s.takeAll (Branch.node tag cs).children).1.length = cs.length from hlen]
  exact ⟨ha, slots, hp, hparts⟩

/-- Whether entries of an object around a branch stay. -/
def KeepsEntries (loose : Bool) (constants : List String) (f : Frame) : Prop :=
  loose = true ∨ (f.tag.kind = .object → ∀ c ∈ f.left, c.isAlterable constants = false)

/-- Entries that stay also stay when more names are known to be assigned once. -/
theorem KeepsEntries.mono {constants constants' : List String} {f : Frame}
    (h : KeepsEntries loose constants f) (hc : constants ⊆ constants') :
    KeepsEntries loose constants' f :=
  h.imp_right fun h hk c hm => Branch.isAlterable_mono hc (h hk c hm)

theorem fits_declared {target : Branch} (ht : target.Fits loose .target) (first size : NodeId)
    (name : String) : (Branch.declaring first name (target.renumber size)).Fits loose .statement :=
  fits_declaring _ _ (fits_renumber ht.expression size).value

/-- Taking out what a node evaluates keeps the layout of a program. -/
theorem Exposure.framed {f : Frame} {gs z : List Frame} {slot : Slot} (h : s.Exposure f gs r)
    (he : loose = true ∨ s.effects = true) (ha : f.tag.kind.isAround) (hf : Framed loose slot (f :: z))
    (hk : KeepsEntries loose s.supply.constants f) (hs : s.TakesStatements loose) :
    Framed loose slot (gs ++ z) ∧ r.TakesStatements loose := by
  cases h with
  | first => exact ⟨hf, hs⟩
  | left tag first rest right hassign hcompound =>
    cases hf with
    | @inside _ _ _ around before after admits parts left right outer =>
    have hb := Kind.before_of_around parts ha hassign hcompound
    by_cases hunalterable : s.effects = true ∧
        ∀ c ∈ first :: rest, c.isAlterable s.supply.constants = false
    · rw [takeAll_of_unalterable hunalterable.1 hunalterable.2]
      exact ⟨.inside admits parts left right outer, hs⟩
    · have hslots : ∀ slot ∈ before, slot = .expression ∨ (slot = .entry ∧ loose = true) :=
        fun slot hm => (hb slot hm).imp_right fun ⟨h, ho⟩ => ⟨h, he.elim id fun heffects =>
          hk.resolve_right fun hko => hunalterable ⟨heffects, hko ho⟩⟩
      obtain ⟨hleft, ht⟩ := takeAll_fits hs left hslots
      have hlen := hleft.length_eq.symm.trans left.length_eq
      refine ⟨.inside (by rwa [hlen]) (by rwa [hlen]) hleft right outer, ht⟩
  | target tag target rest right hkind =>
    obtain ⟨around, rfl, ht, rfl, rfl, hadmits, outer⟩ := hf.assignment (.inl hkind)
    obtain ⟨hparts, htaken⟩ := takeParts_fits hs ht
    refine ⟨.inside hadmits ?_ (.cons hparts .nil) .nil outer,
      htaken⟩
    rw [hkind]
    rfl
  | compound tag op target rest right hkind =>
    obtain ⟨around, rfl, ht, rfl, rfl, hadmits, outer⟩ := hf.assignment (.inr ⟨op, hkind⟩)
    have hnone : ({ s with taken := [] } : Pass).TakesStatements loose := by
      simp [TakesStatements]
    obtain ⟨hparts, htaken⟩ := takeParts_fits hnone ht
    rw [splitCompound]
    dsimp only
    split
    · refine ⟨.inside
        rfl rfl (.cons (fits_madeName _ _ _) .nil) .nil
        (.inside ?_ rfl (.cons hparts .nil) .nil outer), ?_⟩
      · rw [hkind] at hadmits
        cases around <;> exact hadmits
      · intro d hd
        simp only [List.mem_append, List.mem_cons] at hd
        rcases hd with hd | rfl | hd
        · exact htaken d hd
        · exact fits_declared hparts _ _ _
        · exact hs d hd
    · refine ⟨.inside hadmits ?_ (.cons hparts .nil) .nil outer,
        fun d hd => (List.mem_append.mp hd).elim (htaken d) (hs d)⟩
      rw [hkind]
      rfl
  | callee tag callee rest right hkind hn =>
    obtain ⟨rfl, hl, hr, houter⟩ := (framed_call hkind).mp hf
    obtain ⟨hcallee, hrest⟩ := List.forall_mem_cons.mp hl
    obtain ⟨hleft, ht⟩ := takeAll_fits hs (forall₂_replicate.mpr ⟨rfl, hrest⟩) (by simp)
    refine ⟨(framed_call hkind).mpr ⟨rfl, ?_, hr, houter⟩, ht⟩
    exact List.forall_mem_cons.mpr ⟨hcallee, (forall₂_replicate.mp hleft).2⟩
  | method tag part object keys rest right hkind hm hn =>
    obtain ⟨rfl, hl, hr, houter⟩ := (framed_call hkind).mp hf
    obtain ⟨hcallee, hrest⟩ := List.forall_mem_cons.mp hl
    obtain ⟨hleft, ht⟩ := takeAll_fits hs (forall₂_replicate.mpr ⟨rfl, hrest⟩) (by simp)
    refine ⟨(framed_call rfl).mpr ⟨rfl, ?_, hr, houter⟩, ?_⟩
    · refine List.forall_mem_cons.mpr ⟨?_, List.forall_mem_cons.mpr
        ⟨fits_madeName _ _ _, (forall₂_replicate.mp hleft).2⟩⟩
      exact Branch.fits_node.mpr ⟨rfl, _, rfl, .cons (fits_madeName _ _ _) .nil⟩
    · obtain ⟨hadmits, slots, hp, hcs⟩ := Branch.fits_node.mp hcallee
      obtain ⟨slot, slots, hobject, hkeys, rfl⟩ := List.forall₂_cons_right_iff.mp hcs
      obtain rfl := Kind.object_of_member hm hp
      have hmember : ∀ id name span, (Branch.node part (.madeName id name span :: keys)).Fits
          loose .expression := fun id name span =>
        Branch.fits_node.mpr ⟨hadmits, _, hp, .cons (fits_madeName _ _ _) hkeys⟩
      exact List.forall_mem_cons.mpr ⟨fits_declaring _ _ hobject.value,
        List.forall_mem_cons.mpr ⟨fits_declaring _ _ (hmember _ _ _).value, ht⟩⟩

/-- Taking out what the nodes of a path evaluate keeps the layout of a program. -/
theorem exposeFrames_framed (s : Pass) {inner z : List Frame} {slot : Slot}
    (he : loose = true ∨ s.effects = true) (ha : ∀ f ∈ inner, f.tag.kind.isAround)
    (hf : Framed loose slot (inner ++ z))
    (hk : ∀ f ∈ inner, KeepsEntries loose s.supply.constants f) (hs : s.TakesStatements loose) :
    Framed loose slot ((s.exposeFrames inner).1 ++ z) ∧
      (s.exposeFrames inner).2.TakesStatements loose := by
  induction inner generalizing s slot with
  | nil => exact ⟨hf, hs⟩
  | cons f inner ih =>
    have hfirst := s.exposure f
    obtain ⟨hframed, htaken⟩ := hfirst.framed he (ha f List.mem_cons_self) hf
      (hk f List.mem_cons_self) hs
    obtain ⟨hrest, htaken⟩ := Framed.exchange
      (P := (exposeFrames (s.exposeFrame f).2 inner).2.TakesStatements loose) hframed fun h =>
        ih (s.exposeFrame f).2 (he.imp_right hfirst.leads.effects)
        (fun g hg => ha g (List.mem_cons_of_mem _ hg)) h
        (fun g hg => (hk g (List.mem_cons_of_mem _ hg)).mono hfirst.leads.supply.constants) htaken
    exact ⟨by rwa [exposeFrames, List.append_assoc], htaken⟩

end Pass

end Hoist
