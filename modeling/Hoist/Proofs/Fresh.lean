import Hoist.Proofs.Reaching
import Mathlib

namespace Hoist

variable {p : String}

/-- A name is one that the temporaries of a prefix can have. -/
def IsTemporary (p x : String) : Prop := ∃ k : Nat, x = valueAt p k ∨ x = constantAt p k

open Classical in
/-- Whether a name is one that the temporaries of a prefix can have. -/
noncomputable def isTemporary (p x : String) : Bool := decide (IsTemporary p x)

theorem isTemporary_eq {x : String} : isTemporary p x = true ↔ IsTemporary p x := by
  simp [isTemporary]

theorem reserves_isTemporary : Reserves (isTemporary p) p :=
  ⟨fun k => isTemporary_eq.mpr ⟨k, .inl rfl⟩, fun k => isTemporary_eq.mpr ⟨k, .inr rfl⟩⟩

/-- The names of a program are those of a list, or temporaries of a prefix. -/
theorem covers_spells (Q : String → Bool) :
    Covers (fun k => k.spells.all fun x => Q x || isTemporary p x) p where
  constant k := by
    simpa [Kind.spells] using .inr (reserves_isTemporary.constant k)
  value k := by
    simpa [Kind.spells] using .inr (reserves_isTemporary.value k)
  made k hk := by
    cases k with
    | name x | function x params => simp at hk
    | _ => rfl
  binary _ := rfl

section Decomposed

variable {settings : Settings} {file text : String} {t : Tree} {w : Workspace} {b b' : Branch}
  {s' : Supply}

theorem Decomposed.preorder (h : Decomposed settings file text t w b b' s') :
    t.preorder Tree.root = b.ids ∧ w.tree.preorder Tree.root = b'.ids := by
  refine ⟨?_, ?_⟩
  · rw [← h.root]
    exact Tree.Holds.preorder (z := []) h.before
  · rw [← h.root']
    exact Tree.Holds.preorder (z := []) h.after.holds

/-- The names in a program that was worked on are those that it had, and temporaries that it
declares. -/
theorem Decomposed.names (h : Decomposed settings file text t w b b' s')
    (hs : w.tree.Settles (isTemporary settings.tempPrefix) w.constants) :
    ∀ x ∈ w.tree.names, x ∈ t.names ∨ x ∈ b'.temporaries (isTemporary settings.tempPrefix) := by
  obtain ⟨hbefore, hafter⟩ := h.preorder
  intro x hx
  obtain ⟨n, hn, hspells⟩ := List.mem_flatMap.mp hx
  have hsorts : b'.All fun k => k.spells.all fun x =>
      decide (x ∈ t.names) || isTemporary settings.tempPrefix x := by
    refine h.run.all (covers_spells _) ((Tree.Holds.all_iff (z := []) h.before).mpr fun m hm =>
      List.all_eq_true.mpr fun y hy => ?_)
    have hsource : y ∈ t.names := List.mem_flatMap.mpr ⟨m, hbefore ▸ hm, hy⟩
    simp [hsource]
  have hsort := List.all_eq_true.mp
    ((Tree.Holds.all_iff (z := []) h.after.holds).mp hsorts n (hafter ▸ hn)) x hspells
  rcases (Bool.or_eq_true _ _).mp hsort with hsource | htemporary
  · exact .inl (of_decide_eq_true hsource)
  · refine .inr ((mem_temporaries_iff h.after.holds htemporary).mpr ?_)
    cases hk : w.tree.kind n with
    | name y =>
      rw [hk] at hspells
      obtain rfl := List.mem_singleton.mp hspells
      obtain ⟨d, hd, hdeclares, -⟩ := hs.occurrences n hn x (by simp [Tree.name?, hk, Kind.name?])
        htemporary
      exact ⟨d, hafter ▸ hd, hdeclares⟩
    | function y params =>
      have hfalse := hs.functions n hn (by rw [hk]; rfl) x hspells
      rw [htemporary] at hfalse
      cases hfalse
    | _ =>
      rw [hk] at hspells
      cases hspells

end Decomposed

end Hoist
