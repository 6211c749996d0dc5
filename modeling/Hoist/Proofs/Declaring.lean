import Hoist.Proofs.Keeping
import Hoist.Proofs.Naming
import Hoist.Proofs.Scoping

namespace Hoist

variable {P : String → Bool} {p : String} {known : List String} {loose : Bool}

/-- Whether what stands in a place is evaluated with what is around it, as a value or an entry. -/
def Slot.isPart : Slot → Bool
  | .expression | .value | .target | .entry => true
  | _ => false

/-- The places in an expression are parts of it. -/
theorem Kind.parts_isPart {k : Kind} {n : Nat} {slots : List Slot} (h : k.parts n = some slots)
    (ha : k.isAround = true) : ∀ s ∈ slots, s.isPart = true := by
  by_cases hassign : k = .assign ∨ ∃ op, k = .assignOp op
  · rcases hassign with rfl | ⟨op, rfl⟩ <;>
      rcases n with _ | _ | _ | n <;> cases h <;> simp [Slot.isPart]
  · obtain ⟨hone, htwo⟩ := not_or.mp hassign
    cases k <;> first
      | (cases ha; done)
      | exact absurd rfl hone
      | exact absurd ⟨_, rfl⟩ htwo
      | (rcases n with _ | _ | _ | _ | n <;> cases h <;> simp [Slot.isPart])

/-- A part of an expression is one, or a function. -/
theorem Slot.around_of_part {slot : Slot} {k : Kind} {n : Nat} (hs : slot.isPart = true)
    (h : slot.admits loose k n = true) : k.isAround = true ∨ k.isFunction = true := by
  cases slot
  case expression | value | target | entry =>
    cases k <;> first
      | exact .inl rfl
      | exact .inr rfl
      | simp [Slot.admits, Kind.isExpression, Kind.isOperand, Kind.level?, Kind.isTarget,
          Kind.name?] at h
  all_goals cases hs

/-- The children of an expression are parts of it. -/
theorem Branch.Fits.parts {b : Branch} {slot : Slot} (h : b.Fits loose slot)
    (ha : b.kind.isAround = true) :
    ∀ c ∈ b.children, ∃ place : Slot, place.isPart = true ∧ c.Fits loose place := by
  obtain ⟨tag, cs⟩ := b
  obtain ⟨-, slots, hparts, hcs⟩ := Branch.fits_node.mp h
  intro c hc
  obtain ⟨place, hplace, hfits⟩ := exists_of_mem_forall₂ hcs hc
  exact ⟨place, Kind.parts_isPart hparts ha place hplace, hfits⟩

/-- A node around a branch, before which only parts of expressions stand. -/
structure Frame.PartsFit (loose : Bool) (f : Frame) : Prop where
  left : ∀ c ∈ f.left, ∃ slot : Slot, slot.isPart = true ∧ c.Fits loose slot
  increment : ∀ isDecrement isPostfix, f.tag.kind = .increment isDecrement isPostfix → f.left = []

theorem Framed.partsFit {slot : Slot} {z : List Frame} (h : Framed loose slot z) :
    ∀ f ∈ z, f.tag.kind.isAround = true → f.PartsFit loose := by
  intro f hf ha
  obtain ⟨j, before, hole, after, hparts, hleft⟩ := h.places f hf
  refine ⟨fun c hc => ?_, fun isDecrement isPostfix hk => ?_⟩
  · obtain ⟨place, hplace, hfits⟩ := exists_of_mem_forall₂ hleft hc
    exact ⟨place, Kind.parts_isPart hparts ha place (List.mem_append_left _ hplace), hfits⟩
  · have hnil : before = [] := by
      rw [hk] at hparts
      rcases j with _ | _ | j
      · cases hparts
      · cases before with
        | nil => rfl
        | cons => simp [Kind.parts] at hparts
      · cases hparts
    rw [hnil] at hleft
    exact List.forall₂_nil_left_iff.mp hleft

theorem isFlat_of_around {k : Kind} (h : k.isAround = true) : k.isFlat = true := by
  cases k <;> first | rfl | cases h

theorem ne_var_of_around {k : Kind} (h : k.isAround = true) : k ≠ .var := by
  rintro rfl
  cases h

section Temporaries

theorem temporaries_node (tag : Tag) (cs : List Branch) : (Branch.node tag cs).temporaries P =
    (Branch.node tag cs).declares.filter P ++ cs.flatMap (Branch.temporaries P) := by
  rw [Branch.temporaries]

theorem declares_of_ne_var {b : Branch} (h : b.kind ≠ .var) : b.declares = [] := if_neg h

theorem temporaries_of_ne_var {tag : Tag} (cs : List Branch) (h : tag.kind ≠ .var) :
    (Branch.node tag cs).temporaries P = cs.flatMap (Branch.temporaries P) := by
  rw [temporaries_node, declares_of_ne_var (show (Branch.node tag cs).kind ≠ .var from h)]
  rfl

theorem temporaries_made {kind : Kind} (id : NodeId) (span : Span) (cs : List Branch)
    (h : kind ≠ .var) :
    (Branch.made id kind span cs).temporaries P = cs.flatMap (Branch.temporaries P) :=
  temporaries_of_ne_var cs h

@[simp] theorem temporaries_madeName (id : NodeId) (x : String) (span : Span) :
    (Branch.madeName id x span).temporaries P = [] := temporaries_made _ _ _ (by simp)

@[simp] theorem declares_declaring (first : NodeId) (x : String) (b : Branch) :
    (Branch.declaring first x b).declares = [x] := rfl

theorem temporaries_declaring {x : String} (hx : P x = true) (first : NodeId) (b : Branch) :
    (Branch.declaring first x b).temporaries P = x :: b.temporaries P := by
  rw [Branch.declaring, Branch.made, temporaries_node]
  simp [Branch.declares, Branch.made, Branch.kind, Branch.children, Branch.tag, Kind.name?, hx,
    temporaries_of_ne_var]

/-- What calls nothing declares no temporaries. -/
theorem temporaries_of_calls_nil {b : Branch} {slot : Slot} {declared : Bool}
    (hs : slot.isPart = true) (hf : b.Fits loose slot) (hb : b.Scoped P p known declared)
    (hc : b.calls = []) : b.temporaries P = [] := by
  induction b using Branch.induct generalizing slot known declared with
  | node tag cs ih =>
    obtain ⟨hadmits, slots, hparts, hcs⟩ := Branch.fits_node.mp hf
    obtain ⟨-, hminds, hall⟩ := scoped_node.mp hb
    rcases Slot.around_of_part hs hadmits with haround | hfunction
    · have hflat := isFlat_of_around haround
      rw [Kind.isFlat, Bool.and_eq_true, Bool.not_eq_true'] at hflat
      rw [hflat.1, allScoped_iff] at hall
      rw [Branch.calls_node, List.append_eq_nil_iff, List.flatMap_eq_nil_iff] at hc
      rw [temporaries_of_ne_var cs (ne_var_of_around haround), List.flatMap_eq_nil_iff]
      intro c hm
      obtain ⟨place, hplace, hfits⟩ := exists_of_mem_forall₂ hcs hm
      exact ih c hm (Kind.parts_isPart hparts haround place hplace) hfits (hall c hm) (hc.1 c hm)
    · by_contra hne
      exact hminds.busy hfunction hne hc

theorem names_renumberAll (cs : List Branch) (first : NodeId) :
    (Branch.renumberAll first cs).filterMap (fun c => c.kind.name?) =
      cs.filterMap fun c => c.kind.name? := by
  induction cs generalizing first with
  | nil => rfl
  | cons c cs ih =>
    rw [Branch.renumberAll, List.filterMap_cons, List.filterMap_cons, ih, Branch.kind_renumber]

theorem declares_renumber (b : Branch) (first : NodeId) :
    (b.renumber first).declares = b.declares := by
  obtain ⟨tag, cs⟩ := b
  rw [Branch.renumber, Branch.declares, Branch.declares]
  simp only [Branch.kind_node, Branch.children_node, names_renumberAll]
  rfl

theorem temporaries_renumber (b : Branch) (first : NodeId) :
    (b.renumber first).temporaries P = b.temporaries P := by
  induction b using Branch.induct generalizing first with
  | node tag cs ih =>
    have hparts : ∀ m, (Branch.renumberAll m cs).flatMap (Branch.temporaries P) =
        cs.flatMap (Branch.temporaries P) := by
      clear first
      intro m
      induction cs generalizing m with
      | nil => rfl
      | cons c cs ih' =>
        rw [Branch.renumberAll, List.flatMap_cons, List.flatMap_cons, ih c List.mem_cons_self,
          ih' fun d hd => ih d (List.mem_cons_of_mem _ hd)]
    have hdeclares := declares_renumber (.node tag cs) first
    rw [Branch.renumber] at hdeclares ⊢
    rw [temporaries_node, temporaries_node, hparts, hdeclares]

end Temporaries

end Hoist
