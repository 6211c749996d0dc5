import Hoist.Proofs.Calls
import Hoist.Proofs.Tame

namespace Hoist

namespace Branch

/-- The name that a branch is, if it is a name and nothing else. -/
def bareName? (b : Branch) : Option String := if b.children.isEmpty then b.kind.name? else none

/-- The names that a statement declares. -/
def declares (b : Branch) : List String :=
  if b.kind = .var then b.children.filterMap fun c => c.kind.name? else []

/-- The names of a sort that are declared in a branch, once for each declaration. -/
def temporaries (P : String → Bool) : Branch → List String
  | .node tag cs => (declares (.node tag cs)).filter P ++ cs.flatMap (temporaries P)

end Branch

variable (P : String → Bool) (p : String)

/-- A node that assigns no temporary that is assigned once. Where a function declares temporaries it
calls. -/
structure Tag.Minds (tag : Tag) (cs : List Branch) : Prop where
  target : tag.kind.assignsFirst = true →
    ∀ c ∈ cs.head?, ∀ k, c.bareName? ≠ some (constantAt p k)
  busy : tag.kind.isFunction = true → (Branch.node tag cs).temporaries P ≠ [] →
    (Branch.node tag cs).calls ≠ []

mutual

/-- The names of a sort in a branch are known, or declared in statements before those that they stand
in. -/
def Branch.Scoped (known : List String) (declared : Bool) : Branch → Prop
  | .node tag cs =>
    (declared = false → ∀ x, (Branch.node tag cs).bareName? = some x → P x = true → x ∈ known) ∧
      tag.Minds P p cs ∧ Branch.AllScoped tag.kind.isStatementList (tag.kind = .var) known cs

/-- Branches of which each knows what those before it declare, if they are statements of a list. -/
def Branch.AllScoped (ordered declared : Bool) (known : List String) : List Branch → Prop
  | [] => True
  | c :: cs => c.Scoped known declared ∧
      Branch.AllScoped ordered declared (if ordered then known ++ c.declares else known) cs

end

variable {P p} {known more : List String} {declared ordered : Bool}

theorem bareName?_fill (f : Frame) (b : Branch) : (f.fill b).bareName? = none := by
  simp [Branch.bareName?]

theorem scoped_node {tag : Tag} {cs : List Branch} :
    (Branch.node tag cs).Scoped P p known declared ↔
      (declared = false → ∀ x, (Branch.node tag cs).bareName? = some x → P x = true → x ∈ known) ∧
        tag.Minds P p cs ∧
          Branch.AllScoped P p tag.kind.isStatementList (tag.kind = .var) known cs := by
  rw [Branch.Scoped]

theorem Branch.Scoped.mono {b : Branch} (h : b.Scoped P p known declared) (hk : known ⊆ more) :
    b.Scoped P p more declared := by
  induction b using Branch.induct generalizing known more declared with
  | node tag cs ih =>
    rw [scoped_node] at h ⊢
    refine ⟨fun hd x hx hp => hk (h.1 hd x hx hp), h.2.1, ?_⟩
    have hall := h.2.2
    generalize tag.kind.isStatementList = ordered at hall ⊢
    clear h
    induction cs generalizing known more with
    | nil => rw [AllScoped]; trivial
    | cons c cs ih' =>
      rw [AllScoped] at hall ⊢
      refine ⟨ih c List.mem_cons_self hall.1 hk, ih' (fun d hd => ih d (List.mem_cons_of_mem _ hd))
        ?_ hall.2⟩
      cases ordered with
      | true => exact List.append_subset.mpr ⟨fun x hx => List.mem_append_left _ (hk hx),
          List.subset_append_right _ _⟩
      | false => exact hk

/-- A name that is declared need not be known. -/
theorem Branch.Scoped.declare {b : Branch} (h : b.Scoped P p known false) :
    b.Scoped P p known declared := by
  cases b
  rw [scoped_node] at h ⊢
  exact ⟨fun _ => h.1 rfl, h.2⟩

/-- What is no name has nothing to be declared. -/
theorem Branch.Scoped.undeclared {b : Branch} (h : b.Scoped P p known declared)
    (hb : b.bareName? = none) : b.Scoped P p known false := by
  cases b
  rw [scoped_node] at h ⊢
  refine ⟨fun _ x hx => ?_, h.2⟩
  rw [hb] at hx
  cases hx

theorem allScoped_append {as bs : List Branch} :
    Branch.AllScoped P p ordered declared known (as ++ bs) ↔
      Branch.AllScoped P p ordered declared known as ∧
        Branch.AllScoped P p ordered declared
          (if ordered then known ++ as.flatMap Branch.declares else known) bs := by
  induction as generalizing known with
  | nil => simp [Branch.AllScoped]
  | cons a as ih =>
    rw [List.cons_append, Branch.AllScoped, Branch.AllScoped, ih, and_assoc]
    cases ordered <;> simp

theorem allScoped_cons {c : Branch} {cs : List Branch} :
    Branch.AllScoped P p true declared known (c :: cs) ↔
      c.Scoped P p known declared ∧ Branch.AllScoped P p true declared (known ++ c.declares) cs := by
  rw [Branch.AllScoped]
  simp

theorem allScoped_iff {cs : List Branch} : Branch.AllScoped P p false declared known cs ↔
    ∀ c ∈ cs, c.Scoped P p known declared := by
  induction cs with
  | nil => simp [Branch.AllScoped]
  | cons c cs ih =>
    rw [Branch.AllScoped, List.forall_mem_cons]
    exact and_congr_right fun _ => ih

theorem allScoped_mono {cs : List Branch} (h : Branch.AllScoped P p ordered declared known cs)
    (hk : known ⊆ more) : Branch.AllScoped P p ordered declared more cs := by
  induction cs generalizing known more with
  | nil => rw [Branch.AllScoped]; trivial
  | cons c cs ih =>
    rw [Branch.AllScoped] at h ⊢
    refine ⟨h.1.mono hk, ih h.2 ?_⟩
    cases ordered with
    | true => exact List.append_subset.mpr ⟨fun x hx => List.mem_append_left _ (hk hx),
        List.subset_append_right _ _⟩
    | false => exact hk

/-- Whether a node of this kind neither is a list of statements nor a function. -/
def Kind.isFlat (k : Kind) : Bool := !k.isStatementList && !k.isFunction

/-- What stands around a branch in a node that is neither a list of statements nor a function. -/
structure Frame.Scoped (P : String → Bool) (p : String) (known : List String) (f : Frame) : Prop where
  target : f.tag.kind.assignsFirst = true →
    ∀ c ∈ f.left.head?, ∀ k, c.bareName? ≠ some (constantAt p k)
  parts : ∀ c ∈ f.left ++ f.right, c.Scoped P p known (f.tag.kind = .var)

theorem Frame.Scoped.mono {f : Frame} (h : f.Scoped P p known) (hk : known ⊆ more) :
    f.Scoped P p more :=
  ⟨h.target, fun c hc => (h.parts c hc).mono hk⟩

theorem scoped_of_flat {tag : Tag} {cs : List Branch} (hk : tag.kind.isFlat = true)
    (hname : declared = false → ∀ x, (Branch.node tag cs).bareName? = some x → P x = true → x ∈ known)
    (htarget : tag.kind.assignsFirst = true →
      ∀ c ∈ cs.head?, ∀ k, c.bareName? ≠ some (constantAt p k))
    (hparts : ∀ c ∈ cs, c.Scoped P p known (tag.kind = .var)) :
    (Branch.node tag cs).Scoped P p known declared := by
  rw [Kind.isFlat, Bool.and_eq_true, Bool.not_eq_true', Bool.not_eq_true'] at hk
  refine scoped_node.mpr ⟨hname, ⟨htarget, fun hf => ?_⟩, ?_⟩
  · rw [hk.2] at hf
    cases hf
  · rw [hk.1]
    exact allScoped_iff.mpr hparts

theorem scoped_fill {f : Frame} {b : Branch} (hf : f.Scoped P p known)
    (hk : f.tag.kind.isFlat = true) (hb : b.Scoped P p known false)
    (hn : ∀ k, b.bareName? ≠ some (constantAt p k)) : (f.fill b).Scoped P p known declared := by
  refine scoped_of_flat hk (fun _ x hx => ?_) (fun ha => ?_) fun c hc => ?_
  · have hnone := bareName?_fill f b
    rw [Frame.fill] at hnone
    rw [hnone] at hx
    cases hx
  · have htarget := hf.target ha
    cases hl : f.left with
    | nil =>
      intro c hc
      obtain rfl : b = c := by simpa using hc
      exact hn
    | cons first rest =>
      rw [hl] at htarget
      exact htarget
  · rcases List.mem_append.mp hc with hc | hc
    · exact hf.parts c (List.mem_append_left _ hc)
    · rcases List.mem_cons.mp hc with rfl | hc
      · exact hb.declare
      · exact hf.parts c (List.mem_append_right _ hc)

theorem scoped_of_fill {f : Frame} {b : Branch} (h : (f.fill b).Scoped P p known declared)
    (hk : f.tag.kind.isFlat = true) :
    f.Scoped P p known ∧ b.Scoped P p known (f.tag.kind = .var) := by
  rw [Kind.isFlat, Bool.and_eq_true, Bool.not_eq_true'] at hk
  rw [Frame.fill, scoped_node, hk.1, allScoped_iff] at h
  obtain ⟨-, hminds, hparts⟩ := h
  refine ⟨⟨fun ha c hc => hminds.target ha c ?_, fun c hc => hparts c ?_⟩, hparts b (by simp)⟩
  · cases hl : f.left with
    | nil => rw [hl] at hc; cases hc
    | cons first rest => rw [hl] at hc; exact hc
  · rcases List.mem_append.mp hc with hc | hc
    · exact List.mem_append_left _ hc
    · exact List.mem_append_right _ (List.mem_cons_of_mem _ hc)

theorem scoped_plug {z : List Frame} {b : Branch} (hz : ∀ f ∈ z, f.Scoped P p known)
    (hk : ∀ f ∈ z, f.tag.kind.isFlat = true) (hb : b.Scoped P p known false)
    (hn : ∀ k, b.bareName? ≠ some (constantAt p k)) : (plug z b).Scoped P p known false := by
  induction z generalizing b with
  | nil => exact hb
  | cons f z ih =>
    obtain ⟨hf, hz⟩ := List.forall_mem_cons.mp hz
    obtain ⟨hkind, hk⟩ := List.forall_mem_cons.mp hk
    exact ih hz hk (scoped_fill hf hkind hb hn) fun k => by simp [bareName?_fill]

theorem scoped_of_plug {z : List Frame} {b : Branch} (h : (plug z b).Scoped P p known declared)
    (hk : ∀ f ∈ z, f.tag.kind.isFlat = true) (hb : b.bareName? = none) :
    (∀ f ∈ z, f.Scoped P p known) ∧ b.Scoped P p known false := by
  induction z generalizing b with
  | nil => exact ⟨by simp, h.undeclared hb⟩
  | cons f z ih =>
    obtain ⟨hkind, hk⟩ := List.forall_mem_cons.mp hk
    obtain ⟨hz, hfill⟩ := ih h hk (bareName?_fill f b)
    obtain ⟨hf, hb'⟩ := scoped_of_fill hfill hkind
    exact ⟨List.forall_mem_cons.mpr ⟨hf, hz⟩, hb'.undeclared hb⟩

end Hoist
