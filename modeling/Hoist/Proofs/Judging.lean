import Hoist.Proofs.Composing
import Hoist.Proofs.Lasting
import Hoist.Proofs.Reaching
import Hoist.Proofs.Sharing
import Hoist.Proofs.Touching
import Mathlib

namespace Hoist

namespace Tree

end Tree

section Names

variable {K : List String} {b : Branch} {m : Bool} {n : NodeId}

end Names

/-- A program in the work on its calls, with what was done before, compared with the program as it
was read. -/
structure Since (t : Tree) (b₀ : Branch) (p : String) (done : List Branch) (b : Branch)
    (u : Supply) : Prop where
  fits : b.Fits true .program
  root : b.id = Tree.root
  has : ∃ w : Workspace, w.Has u [b]
  size : t.size ≤ u.size
  tempPrefix : u.tempPrefix = p
  constants : ∀ x ∈ u.constants, ∃ k, x = constantAt p k
  houses : ∀ {o : Bool} {i j : NodeId}, i < t.size → j < t.size → b.Houses true o i j →
    b₀.Houses true o i j
  kept : b₀.found (freeing []) false ⊆ b.found (freeing u.constants) false
  /-- What became free was not evaluated in the statement of a call that was held back. -/
  apart : ∀ {K : List String} {n : NodeId}, n < t.size → u.constants ⊆ K →
    (∀ x ∈ K, ∃ k, x = constantAt p k) →
    (∀ x ∈ done, b₀.Houses true true x.id n → x.id ∈ b₀.found (freeing []) false) →
    n ∈ b.found (freeing K) false → n ∈ b₀.found (freeing K) false

section Work

variable {t : Tree} {b₀ b b' x : Branch} {p : String} {done calls : List Branch} {u u' : Supply}
  {settings : Settings} {site : CallSite} {sites : List CallSite} {K : List String} {n : NodeId}

theorem Since.start (ht : t.Holds [b]) (hroot : b.id = Tree.root) (hb : b.Fits true .program)
    (p : String) : Since t b p [] b ⟨t.size, 0, 0, [], p⟩ where
  fits := hb
  root := hroot
  has := ⟨.ofTree t p, ht, rfl, rfl, rfl, rfl, rfl⟩
  size := Nat.le_refl _
  tempPrefix := rfl
  constants _ hx := absurd hx List.not_mem_nil
  houses _ _ h := h
  kept _ h := h
  apart _ _ _ _ h := h

/-- Passes over the statement of a call leave the rooms of a program, and free nothing that is
evaluated apart from the call. -/
theorem Passes.apart {budget : Nat} {s s' : Site} (h : Passes x budget s u s' u')
    (hx : x.kind = .call) (hb : (plug s.frames x).Fits true .program) :
    (∀ {o i j}, i < u.size → j < u.size → (plug s'.frames x).Houses true o i j →
      (plug s.frames x).Houses true o i j) ∧
    ∀ {n}, x.id < u.size → n < u.size → ¬ (plug s.frames x).Houses true true x.id n →
      n ∈ (plug s'.frames x).found (freeing K) false →
      n ∈ (plug s.frames x).found (freeing K) false := by
  induction h with
  | movable => exact ⟨fun _ _ h => h, fun _ _ _ h => h⟩
  | pass rooted held turn rest ih =>
    obtain ⟨hrooms, hfree⟩ := ih (turn.fits hx hb)
    have hsize := turn.grows.size
    refine ⟨fun hi hj h => turn.houses hx hb hi hj (hrooms (Nat.lt_of_lt_of_le hi hsize)
      (Nat.lt_of_lt_of_le hj hsize) h), fun hself hn hroom h => ?_⟩
    refine turn.found_apart hx hb hn hroom (hfree (Nat.lt_of_lt_of_le hself hsize)
      (Nat.lt_of_lt_of_le hn hsize) (fun hlater => hroom ?_) h)
    exact turn.houses hx hb hself hn hlater

/-- A call that is movable gets no pass. -/
theorem Passes.of_movable {budget : Nat} {s s' : Site} (h : Passes x budget s u s' u')
    (hm : s.movability u.constants = .movable) : s' = s ∧ u' = u := by
  cases h with
  | movable => exact ⟨rfl, rfl⟩
  | pass rooted held =>
    rw [hm] at held
    cases held

/-- The rooms of a program after the work on a call were rooms before. -/
theorem Work.houses (h : Work settings x b u site b' u') (hx : x.kind = .call)
    (hb : b.Fits true .program) {o : Bool} {i j : NodeId} (hi : i < u.size) (hj : j < u.size)
    (hin : b'.Houses true o i j) : b.Houses true o i j := by
  cases h with
  | bounded => exact hin
  | stay rooted passes => exact (passes.apart (K := []) hx hb).1 hi hj hin
  | @move s s' _ v rooted passes =>
    have hrun := passes.run hx
    obtain ⟨hsite, hmovable⟩ := passes.ends
    have hturn := (Step.leads_relocate (o := []) hx hsite (hrun.fits hb) hmovable).2
    have hsize := hrun.grows.size
    exact (passes.apart (K := []) hx hb).1 hi hj (hturn.houses hx (hrun.fits hb)
      (Nat.lt_of_lt_of_le hi hsize) (Nat.lt_of_lt_of_le hj hsize) hin)

/-- The work on a call that is free, or is evaluated apart from another, does not free the other. -/
theorem Work.found_apart (h : Work settings x b u site b' u') (hx : x.kind = .call)
    (hb : b.Fits true .program) (hself : x.id < u.size) (hn : n < u.size)
    (hK : u'.constants ⊆ K) (hvalue : ∀ j, valueAt u.tempPrefix j ∉ K)
    (hroom : ¬ b.Houses true true x.id n ∨
      ∀ s : Site, s.Rooted → b = plug s.frames x → s.movability u.constants = .movable)
    (hin : n ∈ b'.found (freeing K) false) : n ∈ b.found (freeing K) false := by
  have hpasses : ∀ {s s' : Site} {v : Supply}, s.Rooted → Passes x (s.budget x) s u s' v →
      b = plug s.frames x → n ∈ (plug s'.frames x).found (freeing K) false →
      n ∈ b.found (freeing K) false := by
    rintro s s' v rooted passes rfl hin
    rcases hroom with hroom | hfree
    · exact (passes.apart hx hb).2 hself hn hroom hin
    · obtain ⟨rfl, -⟩ := passes.of_movable (hfree s rooted rfl)
      exact hin
  cases h with
  | bounded => exact hin
  | stay rooted passes => exact hpasses rooted passes rfl hin
  | @move s s' _ v rooted passes =>
    have hrun := passes.run hx
    obtain ⟨hsite, hmovable⟩ := passes.ends
    have hturn := (Step.leads_relocate (o := []) hx hsite (hrun.fits hb) hmovable).2
    have hname : v.valueName ∉ K := by
      rw [Supply.valueName, hrun.grows.tempPrefix]
      exact hvalue v.nextId
    exact hpasses rooted passes rfl (hturn.found_moved hx (hrun.fits hb)
      (fun y hy => hK (hturn.grows.constants hy)) hname hin)

/-- A call that is free is movable. -/
theorem Since.movability (h : Since t b₀ p done b u) (hx : x.kind = .call) {s : Site}
    (hs : s.Rooted) (hb : b = plug s.frames x)
    (hfree : x.id ∈ b.found (freeing u.constants) false) : s.movability u.constants = .movable := by
  obtain ⟨w, hw⟩ := h.has
  have hfits := h.fits
  have hclassify := (hw.holds.classify_found hfits hfree).2
  subst hb
  rw [hs.classify hw.holds (hasSideEffects_of_call hx) fun f hf =>
    hfits.regular f (by simp [Site.frames, hf])] at hclassify
  exact Except.ok.inj hclassify

/-- The work on a further call. -/
theorem Since.step (h : Since t b₀ p done b u) (work : Work settings x b u site b' u')
    (hx : x.kind = .call) (hid : x.id < t.size) : Since t b₀ p (done ++ [x]) b' u' := by
  have hrun := work.run hx h.fits
  obtain ⟨w, hw⟩ := h.has
  obtain ⟨w', -, hw'⟩ := Step.leads_exposeSite work hx h.fits h.root w hw
  have hprefix := hrun.grows.tempPrefix
  refine ⟨hrun.fits h.fits, hrun.id_eq.trans h.root, ⟨w', hw'⟩,
    Nat.le_trans h.size hrun.grows.size, hprefix.trans h.tempPrefix, fun y hy => ?_,
    fun hi hj hin => ?_, fun n hn => hrun.found_freeing h.fits false (h.kept hn),
    fun {K n} hn hK hnames hdone hin => ?_⟩
  · rcases hrun.grows.drawn y hy with hy | ⟨k, -, hy⟩
    · exact h.constants y hy
    · exact ⟨k, h.tempPrefix ▸ hy⟩
  · exact h.houses hi hj (work.houses hx h.fits (Nat.lt_of_lt_of_le hi h.size)
      (Nat.lt_of_lt_of_le hj h.size) hin)
  · refine h.apart hn (fun y hy => hK (hrun.grows.constants hy)) hnames
      (fun y hy => hdone y (List.mem_append_left _ hy)) ?_
    refine work.found_apart hx h.fits (Nat.lt_of_lt_of_le hid h.size)
      (Nat.lt_of_lt_of_le hn h.size) hK (fun j hj => ?_) ?_ hin
    · obtain ⟨k, hk⟩ := hnames _ hj
      rw [h.tempPrefix] at hk
      exact valueAt_ne_constantAt hk
    · by_cases hroom : b.Houses true true x.id n
      · refine .inr fun s hs hb => h.movability hx hs hb (h.kept (hdone x (by simp) ?_))
        exact h.houses hid hn hroom
      · exact .inl hroom

end Work

variable {settings : Settings} {file text : String} {t : Tree}

end Hoist
