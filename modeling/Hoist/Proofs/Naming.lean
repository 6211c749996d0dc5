import Hoist.Proofs.Freeing
import Hoist.Proofs.Temporaries

namespace Hoist

/-- Names are supplied for a prefix, and only those that are assigned once are known as such. -/
structure Supply.Named (p : String) (s : Supply) : Prop where
  tempPrefix : s.tempPrefix = p
  constants : ∀ x ∈ s.constants, ∃ k, x = constantAt p k

/-- Names that are made between two numbers of temporaries, each once. -/
structure Drawn (p : String) (first last : Nat) (names : List String) : Prop where
  nodup : names.Nodup
  form : ∀ x ∈ names, ∃ k, first ≤ k ∧ k < last ∧ (x = valueAt p k ∨ x = constantAt p k)

variable {p : String} {j k n : Nat} {names more : List String} {s : Supply}

namespace Supply

theorem Named.constantName_eq (h : s.Named p) : s.constantName = constantAt p s.nextId := by
  rw [constantName, h.tempPrefix]
  rfl

theorem Named.valueName_eq (h : s.Named p) : s.valueName = valueAt p s.nextId := by
  rw [valueName, h.tempPrefix]
  rfl

theorem Named.reported (h : s.Named p) : s.reported.Named p := ⟨h.tempPrefix, h.constants⟩

theorem Named.grow (h : s.Named p) (n : Nat) : (s.grow n).Named p := ⟨h.tempPrefix, h.constants⟩

theorem Named.afterConstant (h : s.Named p) : s.afterConstant.Named p where
  tempPrefix := h.tempPrefix
  constants x hx := by
    rw [Supply.afterConstant] at hx
    dsimp only at hx
    split at hx
    · exact h.constants x hx
    · rcases List.mem_append.mp hx with hx | hx
      · exact h.constants x hx
      · exact ⟨_, (List.mem_singleton.mp hx).trans h.constantName_eq⟩

theorem Named.afterName (h : s.Named p) : s.afterName.Named p := ⟨h.tempPrefix, h.constants⟩

end Supply

theorem drawn_nil : Drawn p j k [] := ⟨.nil, by simp⟩

theorem drawn_constant : Drawn p k (k + 1) [constantAt p k] :=
  ⟨List.nodup_singleton _, List.forall_mem_singleton.mpr ⟨k, Nat.le_refl _, Nat.lt_succ_self _, .inr rfl⟩⟩

theorem drawn_value : Drawn p k (k + 1) [valueAt p k] :=
  ⟨List.nodup_singleton _, List.forall_mem_singleton.mpr ⟨k, Nat.le_refl _, Nat.lt_succ_self _, .inl rfl⟩⟩

/-- Temporaries that are made later are others. -/
theorem Drawn.append (h : Drawn p j k names) (h' : Drawn p k n more) (hjk : j ≤ k) (hkn : k ≤ n) :
    Drawn p j n (names ++ more) where
  nodup := by
    refine List.nodup_append.mpr ⟨h.nodup, h'.nodup, fun x hx y hy he => ?_⟩
    obtain ⟨a, -, ha, hx⟩ := h.form x hx
    obtain ⟨b, hb, -, hy⟩ := h'.form y hy
    have hne : a ≠ b := by omega
    subst he
    rcases hx with rfl | rfl <;> rcases hy with hy | hy
    · exact hne (valueAt_injective hy)
    · exact valueAt_ne_constantAt hy
    · exact valueAt_ne_constantAt hy.symm
    · exact hne (constantAt_injective hy)
  form x hx := by
    rcases List.mem_append.mp hx with hx | hx
    · obtain ⟨a, ha, hlt, hx⟩ := h.form x hx
      exact ⟨a, ha, by omega, hx⟩
    · obtain ⟨a, ha, hlt, hx⟩ := h'.form x hx
      exact ⟨a, by omega, hlt, hx⟩

theorem Drawn.perm (h : Drawn p j k names) (hp : names.Perm more) : Drawn p j k more :=
  ⟨hp.nodup_iff.mp h.nodup, fun x hx => h.form x (hp.mem_iff.mpr hx)⟩

/-- A sort of names to which the temporaries of a prefix belong. -/
structure Reserves (P : String → Bool) (p : String) : Prop where
  value : ∀ k, P (valueAt p k) = true
  constant : ∀ k, P (constantAt p k) = true

theorem reserves_isReserved : Reserves (isReserved p) p :=
  ⟨fun _ => isReserved_valueAt, fun _ => isReserved_constantAt⟩

end Hoist
