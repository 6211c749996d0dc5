import Hoist.Proofs.Decomposing
import Mathlib

namespace Hoist

/-- A part of a branch that can not be altered can not be altered either. -/
theorem Branch.isAlterable_of_plug {constants : List String} {z : List Frame} {b : Branch}
    (h : (plug z b).isAlterable constants = false) : b.isAlterable constants = false := by
  induction z generalizing b with
  | nil => exact h
  | cons f z ih =>
    have hfill := ih h
    rw [Branch.isAlterable, List.any_eq_false] at hfill ⊢
    intro tag ht
    refine hfill tag ?_
    rw [Frame.fill, Branch.tags, List.flatMap_append, List.flatMap_cons]
    exact List.mem_cons_of_mem _ (List.mem_append_right _ (List.mem_append_left _ ht))

namespace Tree

/-- The nodes that run when those of a stack do, each before its children. A function is made but
does not run. The budget bounds their number. -/
def runningFrom (t : Tree) : Nat → List NodeId → List NodeId
  | 0, _ => []
  | _, [] => []
  | budget + 1, n :: stack =>
    n :: runningFrom t budget (if (t.kind n).isFunction then stack else t.children n ++ stack)

/-- The nodes that run when a node does. -/
def running (t : Tree) (n : NodeId) : List NodeId := t.runningFrom t.size [n]

/-- What a node evaluates before one of its children. A target that is only written is not
evaluated, but its object and its key are. -/
def evaluatedBefore (t : Tree) (parent child : NodeId) : List NodeId :=
  match t.kind parent with
  | .assign => (t.childrenBefore parent child).flatMap t.children
  | _ => t.childrenBefore parent child

/-- What the nodes of a path evaluate before the node below them. -/
def evaluatedAlong (t : Tree) : NodeId → List NodeId → List NodeId
  | _, [] => []
  | child, parent :: above => t.evaluatedBefore parent child ++ t.evaluatedAlong parent above

/-- What the statement of a root evaluates before it comes to a node. -/
def evaluatedFirst (t : Tree) (root n : NodeId) : List NodeId :=
  t.evaluatedAlong n (t.pathTo root n)

variable {t : Tree} {o : List Branch}

theorem runningFrom_shows (budget : Nat) (cs : List Branch) (h : ∀ c ∈ cs, t.Shows c) :
    t.runningFrom budget (cs.map Branch.id) ⊆ cs.flatMap Branch.ids := by
  induction budget generalizing cs with
  | zero => simp [runningFrom]
  | succ budget ih =>
    cases cs with
    | nil => simp [runningFrom]
    | cons c cs =>
      obtain ⟨tag, ds⟩ := c
      have hc := h _ List.mem_cons_self
      have htail : ∀ d ∈ cs, t.Shows d := fun d hd => h d (List.mem_cons_of_mem _ hd)
      have hchildren : t.children tag.id = ds.map Branch.id := hc.children
      rw [List.map_cons, Branch.id_node, runningFrom, hchildren, List.flatMap_cons, Branch.ids]
      refine List.cons_subset.mpr ⟨by simp, fun n hn => List.mem_cons_of_mem _ ?_⟩
      cases hf : (t.kind tag.id).isFunction with
      | true =>
        rw [hf, if_pos rfl] at hn
        exact List.mem_append_right _ (ih cs htail hn)
      | false =>
        rw [hf, if_neg Bool.false_ne_true, ← List.map_append] at hn
        have hmem := ih (ds ++ cs) (fun d hd => (List.mem_append.mp hd).elim (hc.child d) (htail d)) hn
        rwa [List.flatMap_append] at hmem

/-- What runs with a node that can not be altered can not be altered either. -/
theorem Holds.running_unalterable {z : List Frame} {b : Branch} {constants : List String}
    (h : t.Holds (plug z b :: o)) (hb : b.isAlterable constants = false) :
    ∀ m ∈ t.running b.id, t.isAlterable constants m = false := by
  intro m hm
  have hmem : m ∈ b.ids := by
    have hsub := runningFrom_shows t.size [b] (by simpa using h.shows) hm
    simpa using hsub
  obtain ⟨inner, x, rfl, rfl⟩ := exists_plug_of_mem_ids hmem
  rw [← plug_append] at h
  rw [h.isAlterable]
  exact Branch.isAlterable_of_plug hb

/-- What a node that holds nothing back evaluates before one of its children can not be altered. -/
theorem Holds.evaluatedBefore {f : Frame} {z : List Frame} {b : Branch} {constants : List String}
    (h : t.Holds (plug (f :: z) b :: o)) (hr : f.Regular) (hf : f.holdsBack constants = false) :
    ∀ n ∈ t.evaluatedBefore f.tag.id b.id, ∃ y : List Frame, ∃ c : Branch,
      plug (f :: z) b = plug y c ∧ c.id = n ∧ c.isAlterable constants = false := by
  obtain ⟨tag, left, right⟩ := f
  have hk : t.kind tag.id = tag.kind := h.kind_frame
  have hbefore : t.childrenBefore tag.id b.id = left.map Branch.id :=
    h.takeWhile_children 0 (Nat.zero_le _)
  have hplug : ∀ c ∈ left, ∃ y : List Frame, plug (⟨tag, left, right⟩ :: z) b = plug y c := by
    intro c hc
    obtain ⟨ls, rs, rfl⟩ := List.append_of_mem hc
    exact ⟨⟨tag, ls, rs ++ b :: right⟩ :: z, by simp [Frame.fill]⟩
  intro n hn
  rw [Tree.evaluatedBefore, hk, hbefore] at hn
  have hparts : n ∈ (left.map Branch.id).flatMap t.children →
      (∀ c ∈ left, c.isAlterable constants = false) → ∃ y : List Frame, ∃ c : Branch,
        plug (⟨tag, left, right⟩ :: z) b = plug y c ∧ c.id = n ∧
          c.isAlterable constants = false := by
    intro hn hleft
    obtain ⟨m, hm, hn⟩ := List.mem_flatMap.mp hn
    obtain ⟨⟨part, ds⟩, hc, rfl⟩ := List.mem_map.mp hm
    obtain ⟨y, hy⟩ := hplug _ hc
    have hshows : t.Shows (.node part ds) := (hy ▸ h).shows
    rw [hshows.children] at hn
    obtain ⟨d, hd, rfl⟩ := List.mem_map.mp hn
    obtain ⟨ls, rs, rfl⟩ := List.append_of_mem (show d ∈ ds from hd)
    exact ⟨⟨part, ls, rs⟩ :: y, d, hy, rfl, Branch.isAlterable_of_plug (z := [⟨part, ls, rs⟩])
      (hleft _ hc)⟩
  rcases hr.free hf with hleft | ⟨hassign, part, x, rfl, hx⟩
  · by_cases hassign : tag.kind = .assign
    · rw [hassign] at hn
      exact hparts hn hleft
    · have hn : n ∈ left.map Branch.id := by
        cases hkind : tag.kind <;> rw [hkind] at hn <;> first | exact hn | exact absurd hkind hassign
      obtain ⟨c, hc, rfl⟩ := List.mem_map.mp hn
      obtain ⟨y, hy⟩ := hplug c hc
      exact ⟨y, c, hy, rfl, hleft c hc⟩
  · obtain ⟨y, hy⟩ := hplug (.node part []) List.mem_cons_self
    have hshows : t.Shows (.node part []) := (hy ▸ h).shows
    have hchildren : t.children part.id = [] := hshows.children
    simp only [show tag.kind = .assign from hassign, List.map_cons, List.map_nil,
      List.flatMap_singleton, Branch.id_node, hchildren] at hn
    cases hn

/-- What the nodes of a path that hold nothing back evaluate before the node below them can not be
altered. -/
theorem Holds.evaluatedAlong {inner z : List Frame} {b : Branch} {constants : List String}
    (h : t.Holds (plug (inner ++ z) b :: o)) (hr : ∀ f ∈ inner, f.Regular)
    (hf : ∀ f ∈ inner, f.holdsBack constants = false) :
    ∀ n ∈ t.evaluatedAlong b.id (frameTags inner), ∃ y : List Frame, ∃ c : Branch,
      plug (inner ++ z) b = plug y c ∧ c.id = n ∧ c.isAlterable constants = false := by
  induction inner generalizing b with
  | nil => simp [frameTags, Tree.evaluatedAlong]
  | cons f inner ih =>
    intro n hn
    rw [frameTags, List.map_cons, Tree.evaluatedAlong, List.mem_append] at hn
    rcases hn with hn | hn
    · exact Tree.Holds.evaluatedBefore h (hr f List.mem_cons_self) (hf f List.mem_cons_self) n hn
    · exact ih (b := f.fill b) h (fun g hg => hr g (List.mem_cons_of_mem _ hg))
        (fun g hg => hf g (List.mem_cons_of_mem _ hg)) n hn

/-- Nothing that the statement of a movable call evaluates before the call can be altered, and
nothing that runs with it. -/
theorem unalterable_before_movable {file text : String} {constants : List String} {call : NodeId}
    (h : readTree file text = .ok t) (hk : t.kind call = .call)
    (hm : t.classify constants call = .ok .movable) :
    ∃ root, t.findRoot call = .ok (some root) ∧ ∀ n ∈ t.evaluatedFirst root call,
      t.isAlterable constants n = false ∧ ∀ m ∈ t.running n, t.isAlterable constants m = false := by
  obtain ⟨z, x, hb, -, hprogram, -, rfl⟩ :=
    exists_place_of_readTree h (Tree.lt_size_of_kind (by rw [hk]; simp))
  have hx : x.kind = .call := by rw [← hb.shows.kind, hk]
  have hfits : (plug z x).Fits true .program := hprogram.loose
  rcases site_of_call hfits hx with ⟨s, hs, rfl⟩ | hbounded
  · have hregular : ∀ f ∈ s.inner, f.Regular := fun f hf =>
      hfits.regular f (by simp [Site.frames, hf])
    rw [hs.classify hb (hasSideEffects_of_call hx) hregular, Site.movability] at hm
    have hfree : ∀ f ∈ s.inner, f.holdsBack constants = false := by simpa using hm
    have hsplit := hb
    rw [Site.frames, List.append_assoc] at hsplit
    refine ⟨_, hs.findRoot hb, fun n hn => ?_⟩
    rw [Tree.evaluatedFirst, Site.Rooted.pathTo hb] at hn
    obtain ⟨y, c, hy, rfl, hc⟩ := hsplit.evaluatedAlong hregular hfree n hn
    rw [hy] at hsplit
    exact ⟨(hsplit.isAlterable constants).trans hc, hsplit.running_unalterable hc⟩
  · rw [Tree.classify, hbounded.findRoot hb] at hm
    cases hm

/-- What has side effects and is evaluated before a movable call makes no call and no construction,
and names no variable but those that are known to be assigned once. -/
theorem effects_before_movable_call {file text : String} {constants : List String} {call : NodeId}
    (h : readTree file text = .ok t) (hk : t.kind call = .call)
    (hm : t.classify constants call = .ok .movable) :
    ∃ root, t.findRoot call = .ok (some root) ∧ ∀ n ∈ t.evaluatedFirst root call,
      t.hasSideEffects n = true → t.isAlterable constants n = false := by
  obtain ⟨root, hroot, hbefore⟩ := unalterable_before_movable h hk hm
  exact ⟨root, hroot, fun n hn _ => (hbefore n hn).1⟩

theorem effects_before_movable_call_of_this : ∃ t root,
    readTree "m.js" "(this.x = true) + f();" = .ok t ∧
      t.kind 6 = .call ∧ t.classify ["A"] 6 = .ok .movable ∧ t.findRoot 6 = .ok (some root) ∧
        ∀ n ∈ t.evaluatedFirst root 6, t.hasSideEffects n = true →
          t.isAlterable ["A"] n = false := by
  have hrun : (readTree "m.js" "(this.x = true) + f();").toOption.any (fun t =>
      t.kind 6 = .call ∧ (t.classify ["A"] 6).toOption = some .movable) = true := by decide +kernel
  obtain ⟨t, ht, hk, hm⟩ := exists_of_toOption_any hrun
  obtain ⟨root, hroot, hbefore⟩ := effects_before_movable_call ht hk (eq_ok_of_toOption hm)
  exact ⟨t, root, ht, hk, eq_ok_of_toOption hm, hroot, hbefore⟩

/-- A write to a member of no variable does not keep a call behind it from being moved. -/
theorem exists_write_before_movable_call : ∃ t root call n,
    readTree "m.js" "(this.x = true) + f();" = .ok t ∧ t.kind call = .call ∧
      t.classify [] call = .ok .movable ∧ t.findRoot call = .ok (some root) ∧
        n ∈ t.evaluatedFirst root call ∧ t.hasSideEffects n = true := by
  have hrun : (readTree "m.js" "(this.x = true) + f();").toOption.any (fun t =>
      t.kind 6 = .call ∧ (t.classify [] 6).toOption = some .movable ∧
        (t.findRoot 6).toOption = some (some 8) ∧ 4 ∈ t.evaluatedFirst 8 6 ∧
          t.hasSideEffects 4 = true) = true := by decide +kernel
  obtain ⟨t, ht, hk, hm, hroot, hn, he⟩ := exists_of_toOption_any hrun
  exact ⟨t, 8, 6, 4, ht, hk, eq_ok_of_toOption hm, eq_ok_of_toOption hroot, hn, he⟩

/-- A member that a statement reads before it comes to a movable call is read without a call or a
construction, off nothing but what names no variable. -/
theorem reads_before_movable_call {file text : String} {call : NodeId}
    (h : readTree file text = .ok t) (hk : t.kind call = .call)
    (hm : t.classify [] call = .ok .movable) :
    ∃ root, t.findRoot call = .ok (some root) ∧
      ∀ n ∈ t.evaluatedFirst root call, ∀ m ∈ t.running n, t.isMember m →
        t.isAlterable [] m = false := by
  obtain ⟨root, hroot, hbefore⟩ := unalterable_before_movable h hk hm
  exact ⟨root, hroot, fun n hn m hr _ => (hbefore n hn).2 m hr⟩

theorem reads_before_movable_call_of_this : ∃ t root, readTree "m.js" "this.a + f();" = .ok t ∧
    t.kind 4 = .call ∧ t.classify [] 4 = .ok .movable ∧ t.findRoot 4 = .ok (some root) ∧
      ∀ n ∈ t.evaluatedFirst root 4, ∀ m ∈ t.running n, t.isMember m →
        t.isAlterable [] m = false := by
  have hrun : (readTree "m.js" "this.a + f();").toOption.any (fun t =>
      t.kind 4 = .call ∧ (t.classify [] 4).toOption = some .movable) = true := by decide +kernel
  obtain ⟨t, ht, hk, hm⟩ := exists_of_toOption_any hrun
  obtain ⟨root, hroot, hreads⟩ := reads_before_movable_call ht hk (eq_ok_of_toOption hm)
  exact ⟨t, root, ht, hk, eq_ok_of_toOption hm, hroot, hreads⟩

/-- A read of a member of no variable does not keep a call behind it from being moved, though the
call may change the member. -/
theorem exists_read_before_movable_call : ∃ t root call n m,
    readTree "m.js" "this.a + f();" = .ok t ∧ t.kind call = .call ∧
      t.classify [] call = .ok .movable ∧ t.findRoot call = .ok (some root) ∧
        n ∈ t.evaluatedFirst root call ∧ m ∈ t.running n ∧ t.isMember m = true := by
  have hrun : (readTree "m.js" "this.a + f();").toOption.any (fun t =>
      t.kind 4 = .call ∧ (t.classify [] 4).toOption = some .movable ∧
        (t.findRoot 4).toOption = some (some 6) ∧ 2 ∈ t.evaluatedFirst 6 4 ∧
          2 ∈ t.running 2 ∧ t.isMember 2 = true) = true := by decide +kernel
  obtain ⟨t, ht, hk, hm, hroot, hn, hr, he⟩ := exists_of_toOption_any hrun
  exact ⟨t, 6, 4, 2, 2, ht, hk, eq_ok_of_toOption hm, eq_ok_of_toOption hroot, hn, hr, he⟩

end Tree

end Hoist
