import Hoist.Proofs.Agreeing
import Hoist.Proofs.Kinds

namespace Hoist

universe u

/-- Whether a node of this kind is an expression that assigns its first child. -/
def Kind.assignsFirst : Kind → Bool
  | .assign | .assignOp _ | .increment _ _ => true
  | _ => false

/-- Whether a node of this kind is an expression in the programs whose runs are considered. -/
def Kind.isOperation (k : Kind) : Bool := k.isCore && k.level?.isSome

/-- Whether a node of this kind declares nothing. -/
def Kind.declaresNothing : Kind → Bool
  | .var => false
  | _ => true

/-- A branch of the programs whose runs are considered, while so many temporaries have been made. Of
those that are assigned once none is assigned in an expression. -/
inductive Branch.Tame (p : String) (n : Nat) : Branch → Prop
  | node {tag : Tag} {cs : List Branch} (core : tag.kind.isCore = true)
    (plain : tag.constant = false) (name : ∀ x, tag.kind = .name x → Known p n x)
    (target : tag.kind.assignsFirst = true → ∀ k, firstName cs ≠ some (constantAt p k))
    (parts : ∀ c ∈ cs, c.Tame p n) : Tame p n (.node tag cs)

/-- A node of the programs whose runs are considered, around a branch that is not assigned. -/
structure Frame.Tame (p : String) (n : Nat) (f : Frame) : Prop where
  core : f.tag.kind.isCore = true
  plain : f.tag.constant = false
  name : ∀ x, f.tag.kind = .name x → Known p n x
  target : f.tag.kind.assignsFirst = true →
    f.left ≠ [] ∧ ∀ k, firstName f.left ≠ some (constantAt p k)
  left : ∀ b ∈ f.left, b.Tame p n
  right : ∀ b ∈ f.right, b.Tame p n

variable {Value : Type u} {m : Machine Value} {p : String} {n : Nat}

theorem Branch.All.mono {P Q : Kind → Bool} {b : Branch} (h : b.All P)
    (hq : ∀ k, P k = true → Q k = true) : b.All Q := fun node hn => hq _ (h node hn)

theorem Branch.Tame.mono {b : Branch} {k : Nat} (h : b.Tame p n) (hn : n ≤ k) : b.Tame p k := by
  induction h with
  | node core plain name target _ ih =>
    exact .node core plain (fun x hx => (name x hx).mono hn) target ih

theorem Frame.Tame.mono {f : Frame} {k : Nat} (h : f.Tame p n) (hn : n ≤ k) : f.Tame p k where
  core := h.core
  plain := h.plain
  name x hx := (h.name x hx).mono hn
  target := h.target
  left b hb := (h.left b hb).mono hn
  right b hb := (h.right b hb).mono hn

/-- Members are not considered. -/
theorem Branch.Tame.isMember_eq_false {b : Branch} (h : b.Tame p n) : b.kind.isMember = false := by
  cases h with
  | node core =>
    rw [Branch.kind_node]
    unfold Kind.isMember
    split
    · rename_i hk
      rw [hk] at core
      cases core
    · rename_i hk
      rw [hk] at core
      cases core
    · rfl

theorem firstName_append {left : List Branch} (h : left ≠ []) (rest : List Branch) :
    firstName (left ++ rest) = firstName left := by
  cases left with
  | nil => exact absurd rfl h
  | cons => rfl

theorem tame_fill {f : Frame} {b : Branch} (hf : f.Tame p n) (hb : b.Tame p n) :
    (f.fill b).Tame p n := by
  refine .node hf.core hf.plain hf.name (fun ha => ?_) fun c hc => ?_
  · obtain ⟨hne, ht⟩ := hf.target ha
    rw [firstName_append hne]
    exact ht
  · rcases List.mem_append.mp hc with hc | hc
    · exact hf.left c hc
    · rcases List.mem_cons.mp hc with rfl | hc
      · exact hb
      · exact hf.right c hc

theorem tame_of_fill {f : Frame} {b : Branch} (h : (f.fill b).Tame p n)
    (hf : f.tag.kind.assignsFirst = true → f.left ≠ []) : f.Tame p n ∧ b.Tame p n := by
  cases h with
  | node core plain name target parts =>
    have hl : ∀ c ∈ f.left, c.Tame p n := fun c hc => parts c (List.mem_append_left _ hc)
    have hr : ∀ c ∈ b :: f.right, c.Tame p n := fun c hc => parts c (List.mem_append_right _ hc)
    obtain ⟨hb, hr⟩ := List.forall_mem_cons.mp hr
    refine ⟨⟨core, plain, name, fun ha => ⟨hf ha, ?_⟩, hl, hr⟩, hb⟩
    rw [← firstName_append (hf ha) (b :: f.right)]
    exact target ha

theorem tame_plug {z : List Frame} {b : Branch} (hz : ∀ f ∈ z, f.Tame p n) (hb : b.Tame p n) :
    (plug z b).Tame p n := by
  induction z generalizing b with
  | nil => exact hb
  | cons f z ih =>
    obtain ⟨hf, hz⟩ := List.forall_mem_cons.mp hz
    exact ih hz (tame_fill hf hb)

theorem tame_of_plug {z : List Frame} {b : Branch} (h : (plug z b).Tame p n)
    (hz : ∀ f ∈ z, f.tag.kind.assignsFirst = true → f.left ≠ []) :
    (∀ f ∈ z, f.Tame p n) ∧ b.Tame p n := by
  induction z generalizing b with
  | nil => exact ⟨by simp, h⟩
  | cons f z ih =>
    obtain ⟨hf, hz⟩ := List.forall_mem_cons.mp hz
    obtain ⟨houter, hfill⟩ := ih h hz
    obtain ⟨hframe, hb⟩ := tame_of_fill hfill hf
    exact ⟨List.forall_mem_cons.mpr ⟨hframe, houter⟩, hb⟩

/-- A world has the same temporaries that are assigned once, of those made before a number. -/
def Holding (p : String) (n : Nat) (w w' : World Value) : Prop :=
  ∀ k < n, w'.store (constantAt p k) = w.store (constantAt p k)

/-- An action does nothing but read temporaries that are assigned once. -/
def Inert (p : String) (n : Nat) (w : World Value) (a : Effect Value) (v : Value) : Prop :=
  ∀ w', Holding p n w w' → a w' = (v, w')

namespace Kind

theorem chosen_mem {α : Type u} {kind : Kind} {isTrue : Bool} {parts : List α} {a : α}
    (h : kind.chosen isTrue parts = some a) : a ∈ parts := by
  unfold chosen at h
  split at h
  · exact List.mem_of_getElem? h
  · exact List.mem_of_getElem? h
  · exact List.mem_of_getElem? h
  · exact List.mem_of_getElem? h
  · exact List.mem_of_getElem? h
  · exact List.mem_of_getElem? h
  · cases h

theorem assigned_eq_none {kind : Kind} (h : kind.assignsFirst = false) (hv : kind ≠ .var)
    (values : List Value) : kind.assigned m values = none := by
  unfold assigned
  split <;> first | rfl | exact absurd rfl hv | cases h

theorem declaresNothing_of_isOperation {kind : Kind} (h : kind.isOperation = true) :
    kind.declaresNothing = true := by
  unfold declaresNothing
  split
  · cases h
  · rfl

theorem isOperation_ne_var {kind : Kind} (h : kind.isOperation = true) : kind ≠ .var := by
  rintro rfl
  cases h

end Kind

theorem update_none (w : World Value) (target : Option String) : w.update target none = w := by
  cases target <;> rfl

/-- A call does not change the temporaries. -/
theorem perform_store (w : World Value) (callee : Value) (arguments : List Value) {x : String}
    (hx : isReserved p x = true) : (m.perform p callee arguments w).2.store x = w.store x := by
  rw [Machine.perform]
  exact if_pos hx

/-- What a node does after its parts keeps the temporaries that are assigned once, if it assigns none
of them. -/
theorem Kind.conclude_store {kind : Kind} {target : Option String} (values : List Value)
    (w : World Value) {k : Nat} (hv : kind ≠ .var)
    (ht : kind.assignsFirst = true → target ≠ some (constantAt p k)) :
    (kind.conclude m p target values w).2.store (constantAt p k) = w.store (constantAt p k) := by
  unfold conclude
  split
  · rfl
  · exact perform_store w _ _ isReserved_constantAt
  · by_cases ha : kind.assignsFirst = true
    · have hne := ht ha
      dsimp only
      cases target with
      | none => rfl
      | some x =>
        have hx : constantAt p k ≠ x := fun he => hne (congrArg some he.symm)
        cases kind.assigned m values with
        | none => rfl
        | some v => exact w.assign_store_of_ne hx v
    · rw [assigned_eq_none (by simpa using ha) hv, update_none]

theorem inOrder_store {as : List (Effect Value)} {x : String}
    (h : ∀ a ∈ as, ∀ w, (a w).2.store x = w.store x) (w : World Value) :
    (Effect.inOrder as w).2.store x = w.store x := by
  induction as generalizing w with
  | nil => rfl
  | cons a as ih =>
    obtain ⟨ha, has⟩ := List.forall_mem_cons.mp h
    rw [Effect.inOrder]
    exact (ih has _).trans (ha w)

namespace Kind

variable {kind : Kind} {target : Option String} {parts : List (Effect Value)}

/-- A node keeps the temporaries that are assigned once if its parts do and it assigns none. -/
theorem run_store (w : World Value) {k : Nat} (hv : kind ≠ .var)
    (ht : kind.assignsFirst = true → target ≠ some (constantAt p k))
    (hparts : ∀ a ∈ parts, ∀ w, (a w).2.store (constantAt p k) = w.store (constantAt p k)) :
    (kind.run m p target parts w).2.store (constantAt p k) = w.store (constantAt p k) := by
  unfold run
  split
  · cases parts with
    | nil => rfl
    | cons first rest =>
      obtain ⟨hfirst, hrest⟩ := List.forall_mem_cons.mp hparts
      dsimp only
      split
      · rename_i next hnext
        exact (hrest next (chosen_mem hnext) _).trans (hfirst w)
      · exact hfirst w
  · refine (conclude_store _ _ hv ht).trans (inOrder_store (fun a ha => hparts a ?_) w)
    split at ha
    · exact List.mem_of_mem_tail ha
    · exact ha

end Kind

namespace Branch.Tame

variable {b : Branch}

/-- A branch does the same where worlds agree. -/
theorem runs_alike (h : b.Tame p n) : Matches p n (b.run m p) (b.run m p) := by
  induction h with
  | node _ _ name _ _ ih =>
    rw [run_node]
    refine Kind.run_matches name (List.forall₂_same.mpr fun a ha => ?_)
    obtain ⟨c, hc, rfl⟩ := List.mem_map.mp ha
    exact ih c hc

/-- What declares nothing keeps the temporaries that are assigned once. -/
theorem run_store (h : b.Tame p n) (ho : b.All Kind.declaresNothing) (w : World Value) (k : Nat) :
    (b.run m p w).2.store (constantAt p k) = w.store (constantAt p k) := by
  induction h generalizing w with
  | node _ _ _ target _ ih =>
    obtain ⟨hkind, hparts⟩ := all_branch.mp ho
    rw [run_node]
    refine Kind.run_store w (fun hv => by rw [hv] at hkind; cases hkind) (fun ha => target ha k)
      fun a ha => ?_
    obtain ⟨c, hc, rfl⟩ := List.mem_map.mp ha
    exact ih c hc (hparts c hc)

end Branch.Tame

/-- Actions that only read temporaries that are assigned once can be run at any time. -/
theorem inOrder_inert {as : List (Effect Value)} {w : World Value}
    (h : ∀ a ∈ as, ∃ v, Inert p n w a v) :
    ∃ vs, ∀ w', Holding p n w w' → Effect.inOrder as w' = (vs, w') := by
  induction as with
  | nil => exact ⟨[], fun _ _ => rfl⟩
  | cons a as ih =>
    obtain ⟨⟨v, ha⟩, has⟩ := List.forall_mem_cons.mp h
    obtain ⟨vs, hvs⟩ := ih has
    refine ⟨v :: vs, fun w' hw => ?_⟩
    rw [Effect.inOrder, ha w' hw]
    dsimp only
    rw [hvs w' hw]

namespace Kind

variable {kind : Kind} {target : Option String} {w : World Value}

/-- A node that neither calls nor assigns only reads what it is named for. -/
theorem conclude_inert (values : List Value) (hcall : kind ≠ .call) (hv : kind ≠ .var)
    (hname : ∀ x, kind = .name x → ∃ k < n, x = constantAt p k)
    (ht : kind.assignsFirst = true → target = none) :
    ∃ v, Inert p n w (kind.conclude m p target values) v := by
  cases hk : kind with
  | name x =>
    refine ⟨values.head?.getD (w.store x), fun w' hw => ?_⟩
    obtain ⟨k, hlt, rfl⟩ := hname x hk
    rw [conclude, hw k hlt]
  | call => exact absurd hk hcall
  | _ =>
    rw [← hk]
    refine ⟨kind.value m values, fun w' _ => ?_⟩
    have hworld : w'.update target (kind.assigned m values) = w' := by
      cases ha : kind.assignsFirst with
      | true =>
        rw [ht ha]
        rfl
      | false => rw [assigned_eq_none ha hv, update_none]
    unfold conclude
    split
    · cases hk
    · cases hk
    · rw [hworld]

theorem run_inert {parts : List (Effect Value)} (hcall : kind ≠ .call) (hv : kind ≠ .var)
    (hname : ∀ x, kind = .name x → ∃ k < n, x = constantAt p k)
    (ht : kind.assignsFirst = true → target = none) (hparts : ∀ a ∈ parts, ∃ v, Inert p n w a v) :
    ∃ v, Inert p n w (kind.run m p target parts) v := by
  cases hs : kind.isSelective with
  | true =>
    cases parts with
    | nil =>
      refine ⟨m.undefined, fun w' _ => ?_⟩
      rw [run, if_pos hs]
    | cons first rest =>
      obtain ⟨⟨v, hfirst⟩, hrest⟩ := List.forall_mem_cons.mp hparts
      cases hchosen : kind.chosen (m.truthy v) rest with
      | none =>
        refine ⟨v, fun w' hw => ?_⟩
        rw [run, if_pos hs]
        simp only [hfirst w' hw, hchosen]
      | some next =>
        obtain ⟨u, hnext⟩ := hrest next (chosen_mem hchosen)
        refine ⟨u, fun w' hw => ?_⟩
        rw [run, if_pos hs]
        simp only [hfirst w' hw, hchosen]
        exact hnext w' hw
  | false =>
    obtain ⟨vs, hvs⟩ : ∃ vs, ∀ w', Holding p n w w' →
        Effect.inOrder (if kind = .assign then parts.tail else parts) w' = (vs, w') :=
      inOrder_inert fun a ha => hparts a (by
        split at ha
        · exact List.mem_of_mem_tail ha
        · exact ha)
    obtain ⟨v, hconclude⟩ := conclude_inert (m := m) (w := w) vs hcall hv hname ht
    refine ⟨v, fun w' hw => ?_⟩
    unfold run
    rw [if_neg (by simp [hs])]
    dsimp only
    rw [hvs w' hw]
    exact hconclude w' hw

end Kind

theorem Kind.eq_name {kind : Kind} {x : String} (h : kind.name? = some x) : kind = .name x := by
  cases kind <;> cases h
  rfl

/-- A name that nothing can alter is one that is assigned once. -/
theorem Branch.Tame.eq_constantAt {b : Branch} {constants : List String} {x : String}
    (h : b.Tame p n) (hc : ∀ x ∈ constants, ∃ k, x = constantAt p k)
    (hu : b.isAlterable constants = false) (hk : b.kind = .name x) :
    ∃ k < n, x = constantAt p k := by
  cases h with
  | @node tag cs core plain name =>
    rw [isAlterable, tags, List.any_cons, Bool.or_eq_false_iff] at hu
    have htag := hu.1
    rw [Tag.isAlterable, show tag.kind = .name x from hk, plain] at htag
    obtain ⟨k, rfl⟩ := hc x (by simpa using htag)
    exact ⟨k, lt_of_known_constantAt (name _ hk), rfl⟩

/-- An expression that nothing can alter only reads temporaries that are assigned once. -/
theorem Branch.Tame.inert {b : Branch} {constants : List String} (h : b.Tame p n)
    (ho : b.All Kind.isOperation) (hc : ∀ x ∈ constants, ∃ k, x = constantAt p k)
    (hu : b.isAlterable constants = false) (w : World Value) : ∃ v, Inert p n w (b.run m p) v := by
  induction h with
  | @node tag cs core plain name target parts ih =>
    obtain ⟨hkind, hparts⟩ := all_branch.mp ho
    have hnode : (Branch.node tag cs).Tame p n := .node core plain name target parts
    have hname := fun x => hnode.eq_constantAt hc hu (x := x)
    rw [isAlterable, tags, List.any_cons, Bool.or_eq_false_iff, List.any_flatMap] at hu
    obtain ⟨htag, hrest⟩ := hu
    have hbelow : ∀ c ∈ cs, c.isAlterable constants = false := fun c hm => by
      simpa [isAlterable] using List.any_eq_false.mp hrest c hm
    have hcall : tag.kind ≠ .call := by
      intro hk
      rw [Tag.isAlterable, hk] at htag
      cases htag
    rw [run_node]
    refine Kind.run_inert hcall (Kind.isOperation_ne_var hkind) hname (fun ha => ?_) fun a ha => ?_
    · cases cs with
      | nil => rfl
      | cons c cs =>
        cases hx : c.kind.name? with
        | none => exact hx
        | some x =>
          obtain ⟨k, -, rfl⟩ := (parts c List.mem_cons_self).eq_constantAt hc
            (hbelow c List.mem_cons_self) (Kind.eq_name hx)
          exact absurd hx (target ha k)
    · obtain ⟨c, hm, rfl⟩ := List.mem_map.mp ha
      exact ih c hm (hparts c hm) (hbelow c hm)

end Hoist
