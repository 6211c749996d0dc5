import Hoist.FileTree
import Hoist.Proofs.OutputPaths
import Mathlib.Data.List.Lex
import Mathlib.Data.String.Basic

namespace Hoist

namespace FileTree

/-- A name that a system takes. -/
structure IsStoredName (name : String) : Prop extends IsEntryName name where
  short : name.utf8ByteSize ≤ nameLimit

instance (name : String) : Decidable (IsStoredName name) :=
  decidable_of_iff (IsEntryName name ∧ name.utf8ByteSize ≤ nameLimit)
    ⟨fun ⟨entry, short⟩ => ⟨entry, short⟩, fun h => ⟨h.toIsEntryName, h.short⟩⟩

/-- What the files and the directories of a system are: each of their names is one, the files are in
the order of the names that lead to them, and no file is a directory. -/
structure Proper (t : FileTree) : Prop where
  file_names : ∀ f ∈ t.files, ∀ name ∈ f.1, IsStoredName name
  directory_names : ∀ d ∈ t.directories, ∀ name ∈ d, IsStoredName name
  sorted : t.files.Pairwise fun f g => f.1 < g.1
  apart : ∀ f ∈ t.files, t.isDirectory f.1 = false

variable {t u : FileTree} {names place : List String} {content : ByteArray} {p q : Place}

theorem mem_of_lookup {fs : List (List String × ByteArray)} (h : fs.lookup names = some content) :
    (names, content) ∈ fs := by
  induction fs with
  | nil => cases h
  | cons f fs ih =>
    rw [List.lookup_cons] at h
    split at h
    · next he =>
      cases h
      rw [beq_iff_eq] at he
      exact List.mem_cons.mpr (.inl (by rw [he]))
    · exact List.mem_cons_of_mem _ (ih h)

/-- Directories stand where they do. -/
theorem Proper.entry?_eq_directory (h : t.Proper) :
    t.entry? (.inRun names) = some .directory ↔ t.isDirectory names = true := by
  rw [ entry?]
  cases hlookup : t.files.lookup names with
  | none => simp
  | some content => simp [h.apart _ (mem_of_lookup hlookup)]

theorem lookup_putAmong (fs : List (List String × ByteArray)) :
    (putAmong place content fs).lookup names =
      if names = place then some content else fs.lookup names := by
  have hfirst : ∀ (k : List String) (v : ByteArray) (gs : List (List String × ByteArray)),
      ((k, v) :: gs).lookup names = if names = k then some v else gs.lookup names := by
    intro k v gs
    rw [List.lookup_cons]
    by_cases hk : names = k
    · simp [hk]
    · rw [beq_eq_false_iff_ne.mpr hk, if_neg hk]
  induction fs with
  | nil => rw [putAmong, hfirst]
  | cons f fs ih =>
    obtain ⟨k, v⟩ := f
    rw [putAmong, hfirst k v fs]
    split
    · next hk =>
      subst hk
      rw [hfirst]
      split <;> rfl
    · next hk =>
      split
      · rw [hfirst, hfirst]
      · rw [hfirst, ih]
        by_cases hn : names = place
        · simp [hn, Ne.symm hk]
        · simp [hn]

theorem mem_putAmong {fs : List (List String × ByteArray)} {f : List String × ByteArray}
    (h : f ∈ putAmong place content fs) : f = (place, content) ∨ f ∈ fs := by
  induction fs with
  | nil => exact .inl (List.mem_singleton.mp h)
  | cons g fs ih =>
    rw [putAmong] at h
    split at h
    · exact (List.mem_cons.mp h).imp_right (List.mem_cons_of_mem _)
    · split at h
      · exact List.mem_cons.mp h
      · rcases List.mem_cons.mp h with rfl | h
        · exact .inr List.mem_cons_self
        · exact (ih h).imp_right (List.mem_cons_of_mem _)

theorem any_putAmong (test : List String → Bool) (fs : List (List String × ByteArray)) :
    ((putAmong place content fs).any fun f => test f.1) =
      (test place || fs.any fun f => test f.1) := by
  induction fs with
  | nil => simp [putAmong]
  | cons f fs ih =>
    rw [putAmong]
    split
    · next hf => simp [hf]
    · split
      · simp
      · rw [List.any_cons, ih, List.any_cons, Bool.or_left_comm]

/-- Whatever leads to a directory is one. -/
theorem isDirectory_of_isPrefix (h : t.isDirectory place = true) (hn : names <+: place) :
    t.isDirectory names = true := by
  rw [isDirectory, Bool.or_eq_true, Bool.or_eq_true] at h ⊢
  rcases h with (h | h) | h
  · rw [List.isEmpty_iff] at h
    subst h
    rw [List.prefix_nil.mp hn]
    exact .inl (.inl rfl)
  · obtain ⟨d, hd, hp⟩ := List.any_eq_true.mp h
    exact .inl (.inr (List.any_eq_true.mpr
      ⟨d, hd, List.isPrefixOf_iff_prefix.mpr (hn.trans (List.isPrefixOf_iff_prefix.mp hp))⟩))
  · obtain ⟨f, hf, hp⟩ := List.any_eq_true.mp h
    rw [Bool.and_eq_true, List.isPrefixOf_iff_prefix, decide_eq_true_eq] at hp
    refine .inr (List.any_eq_true.mpr ⟨f, hf, ?_⟩)
    rw [Bool.and_eq_true, List.isPrefixOf_iff_prefix, decide_eq_true_eq]
    refine ⟨hn.trans hp.1, fun he => hp.2 ?_⟩
    exact hp.1.eq_of_length (Nat.le_antisymm hp.1.length_le (he ▸ hn.length_le))

/-- What leads to a place in a directory, and not to the directory, leads to the directory. -/
theorem prefix_dropLast (h : names <+: place) (hne : names ≠ place) : names <+: place.dropLast := by
  rcases place.eq_nil_or_concat with rfl | ⟨init, last, rfl⟩
  · exact absurd (List.prefix_nil.mp h) hne
  · rw [List.concat_eq_append] at h hne ⊢
    rw [List.dropLast_concat]
    exact (List.prefix_concat_iff.mp h).resolve_left hne

/-- A file that is put into a directory makes no other directory. -/
theorem isDirectory_put (h : t.isDirectory place.dropLast = true) :
    (t.put place content).isDirectory = t.isDirectory := by
  funext names
  have hput : (t.put place content).isDirectory names =
      (t.isDirectory names || (names.isPrefixOf place && names ≠ place)) := by
    rw [isDirectory, isDirectory, put,
      any_putAmong (fun f => names.isPrefixOf f && decide (names ≠ f)),
      Bool.or_comm (names.isPrefixOf place && _), ← Bool.or_assoc]
  rw [hput, Bool.or_eq_left_iff_imp, Bool.and_eq_true, List.isPrefixOf_iff_prefix,
    decide_eq_true_eq]
  exact fun hp => isDirectory_of_isPrefix h (prefix_dropLast hp.1 hp.2)

/-- A file that is put into a directory is all that is there then besides what was. -/
theorem entry?_put (h : t.isDirectory place.dropLast = true) : entry? (t.put place content) p =
    if p = .inRun place then some (.file content) else t.entry? p := by
  cases p with
  | inSystem names => rw [if_neg (by simp)]; rfl
  | inRun names =>
    rw [ entry?, isDirectory_put h, put, lookup_putAmong]
    by_cases hn : names = place
    · simp [hn]
    · simp [hn, entry?]

/-- A place that segments lead to, where each of them is passed in a directory. -/
inductive Leads (t : FileTree) : Place → List String → Place → Prop
  | here {p : Place} : Leads t p [] p
  | stay {p q : Place} {segment : String} {rest : List String} : t.entry? p = some .directory →
      isIdle segment = true → Leads t p rest q → Leads t p (segment :: rest) q
  | up {p q : Place} {rest : List String} : t.entry? p = some .directory →
      Leads t p.parent rest q → Leads t p (".." :: rest) q
  | down {p q : Place} {segment : String} {rest : List String} : t.entry? p = some .directory →
      isIdle segment = false → segment ≠ ".." → segment.utf8ByteSize ≤ nameLimit →
        Leads t (p.child segment) rest q → Leads t p (segment :: rest) q

theorem Leads.follow {segments : List String} (h : t.Leads p segments q) :
    t.follow p segments = .ok q := by
  induction h with
  | here => rw [FileTree.follow]
  | stay hp hs _ ih => rw [FileTree.follow, hp, ← ih]; simp [hs]
  | up hp _ ih => rw [FileTree.follow, hp, ← ih]; simp [isIdle]
  | down hp hs hne hlimit _ ih =>
    rw [FileTree.follow, hp, ← ih]
    simp [hs, hne, Nat.not_lt_of_le hlimit]

theorem leads_of_follow {segments : List String} (h : t.follow p segments = .ok q) :
    t.Leads p segments q := by
  induction segments generalizing p with
  | nil =>
    rw [follow] at h
    cases h
    exact .here
  | cons segment rest ih =>
    rw [follow] at h
    split at h
    · cases h
    · next hp =>
      split at h
      · next hs => exact .stay hp hs (ih h)
      · next hs =>
        split at h
        · next he => exact he ▸ .up hp (ih h)
        · next he =>
          split at h
          · cases h
          · next hlimit =>
            exact .down hp (Bool.eq_false_iff.mpr hs) he (Nat.le_of_not_lt hlimit) (ih h)
    · cases h

theorem Leads.unique {segments : List String} {r : Place} (h : t.Leads p segments q)
    (h' : t.Leads p segments r) : q = r :=
  Except.ok.inj (h.follow.symm.trans h'.follow)

/-- Only the directories count for where segments lead. -/
theorem Leads.mono {segments : List String} (h : t.Leads p segments q)
    (hd : ∀ p, t.entry? p = some .directory → u.entry? p = some .directory) :
    u.Leads p segments q := by
  induction h with
  | here => exact .here
  | stay hp hs _ ih => exact .stay (hd _ hp) hs ih
  | up hp _ ih => exact .up (hd _ hp) ih
  | down hp hs hne hlimit _ ih => exact .down (hd _ hp) hs hne hlimit ih

theorem Leads.append {front rest : List String} {r : Place} (h : t.Leads p front r)
    (h' : t.Leads r rest q) : t.Leads p (front ++ rest) q := by
  induction h with
  | here => exact h'
  | stay hp hs _ ih => exact .stay hp hs (ih h')
  | up hp _ ih => exact .up hp (ih h')
  | down hp hs hne hlimit _ ih => exact .down hp hs hne hlimit (ih h')

theorem Leads.split {front rest : List String} (h : t.Leads p (front ++ rest) q) :
    ∃ r, t.Leads p front r ∧ t.Leads r rest q := by
  induction front generalizing p with
  | nil => exact ⟨p, .here, h⟩
  | cons segment front ih =>
    cases h with
    | stay hp hs h =>
      obtain ⟨r, hr, hq⟩ := ih h
      exact ⟨r, .stay hp hs hr, hq⟩
    | up hp h =>
      obtain ⟨r, hr, hq⟩ := ih h
      exact ⟨r, .up hp hr, hq⟩
    | down hp hs hne hlimit h =>
      obtain ⟨r, hr, hq⟩ := ih h
      exact ⟨r, .down hp hs hne hlimit hr, hq⟩

/-- Idle segments lead nowhere else. -/
theorem Leads.eq_of_idle {segments : List String} (h : t.Leads p segments q)
    (hs : ∀ segment ∈ segments, isIdle segment = true) : q = p := by
  induction h with
  | here => rfl
  | stay _ _ _ ih => exact ih fun s hm => hs s (List.mem_cons_of_mem _ hm)
  | up _ _ _ => exact absurd (hs _ List.mem_cons_self) (by decide)
  | down _ hidle _ _ _ _ =>
    rw [hs _ List.mem_cons_self] at hidle
    cases hidle

/-- Segments lead on from where the ones before them lead. -/
theorem Leads.of_append {front more : List String} {d : Place} (h : t.Leads p front d)
    (h' : t.Leads p (front ++ more) q) : t.Leads d more q := by
  obtain ⟨r, hr, hq⟩ := h'.split
  rwa [hr.unique h] at hq

theorem Leads.of_dropIdle {front more : List String} {d : Place} (h : t.Leads p front d)
    (h' : t.Leads p (dropIdle front ++ more) q) : t.Leads d more q := by
  obtain ⟨idle, hfront, hidle⟩ := exists_dropIdle front
  rw [hfront] at h
  obtain ⟨r, hr, hd⟩ := h.split
  rw [hd.eq_of_idle hidle]
  exact hr.of_append h'

/-- Names lead below a directory. -/
theorem Leads.eq_below {more : List String} (h : t.Leads (.inRun names) more q)
    (hmore : ∀ name ∈ more, IsEntryName name) : q = .inRun (names ++ more) := by
  generalize hp : Place.inRun names = p at h
  induction h generalizing names with
  | here => rw [← hp, List.append_nil]
  | stay _ hs _ _ =>
    rw [(hmore _ List.mem_cons_self).awake] at hs
    cases hs
  | up _ _ _ => exact absurd rfl (hmore _ List.mem_cons_self).down
  | @down _ _ segment rest _ _ _ _ _ ih =>
    subst hp
    rw [@ih (names ++ [segment]) (fun name hn => hmore name (List.mem_cons_of_mem _ hn)) rfl,
      List.append_assoc]
    rfl

/-- Where a path starts shows in its first segment. -/
theorem start?_of_segments {path first : String} {rest : List String}
    (h : segments path = first :: rest) (hne : first ≠ "" ∨ rest ≠ []) :
    Place.start? path = some (if first = "" then .inSystem [] else .inRun []) := by
  have hpath : path ≠ "" := by
    rintro rfl
    have hempty : segments "" = [""] := by decide
    rw [hempty] at h
    cases h
    exact hne.elim (· rfl) (· rfl)
  rw [Place.start?, if_neg hpath, h, List.head?_cons]
  by_cases hf : first = "" <;> simp [hf]

/-- A directory stands in a directory. -/
theorem Proper.entry?_parent (ht : t.Proper) (h : t.entry? p = some .directory) :
    t.entry? p.parent = some .directory := by
  cases p with
  | inRun names =>
    cases names with
    | nil => rfl
    | cons name names =>
      rw [ht.entry?_eq_directory] at h
      exact ht.entry?_eq_directory.mpr (isDirectory_of_isPrefix h (List.dropLast_prefix _))
  | inSystem names =>
    have hsystem : systemEntry? names = some .directory := by
      rw [ entry?] at h
      split at h <;> first | assumption | cases h
    match names, hsystem with
    | [], _ | [_], _ => rfl
    | _ :: _ :: _, hsystem =>
      simp only [ systemEntry?] at hsystem
      split at hsystem <;> cases hsystem

/-- What is no directory is led to by its name, from the directory that it stands in. -/
theorem Leads.exists_child (ht : t.Proper) {segments : List String} (h : t.Leads p segments q)
    (hp : t.entry? p = some .directory) (hq : t.entry? q ≠ some .directory) :
    ∃ front name d, segments = front ++ [name] ∧ t.Leads p front d ∧
      t.entry? d = some .directory ∧ isIdle name = false ∧ name ≠ ".." ∧
        name.utf8ByteSize ≤ nameLimit ∧ q = d.child name := by
  induction h with
  | here => exact absurd hp hq
  | @stay p q segment rest _ hs _ ih =>
    obtain ⟨front, name, d, rfl, hd, hname⟩ := ih hp hq
    exact ⟨segment :: front, name, d, rfl, .stay hp hs hd, hname⟩
  | @up p q rest _ _ ih =>
    obtain ⟨front, name, d, rfl, hd, hname⟩ := ih (ht.entry?_parent hp) hq
    exact ⟨".." :: front, name, d, rfl, .up hp hd, hname⟩
  | @down p q segment rest _ hs hne hlimit hrest ih =>
    by_cases hchild : t.entry? (p.child segment) = some .directory
    · obtain ⟨front, name, d, rfl, hd, hname⟩ := ih hchild hq
      exact ⟨segment :: front, name, d, rfl, .down hp hs hne hlimit hd, hname⟩
    · cases hrest with
      | here => exact ⟨[], segment, p, rfl, .here, hp, hs, hne, hlimit, rfl⟩
      | stay hc _ _ | up hc _ | down hc _ _ _ _ => exact absurd hc hchild

/-- What a path leads to is led to by its segments. -/
theorem resolve_eq_ok {path : String} : t.resolve path = .ok q ↔
    isTooLong path = false ∧ ∃ p, Place.start? path = some p ∧ t.Leads p (segments path) q := by
  rw [resolve]
  cases isTooLong path with
  | true => simp
  | false =>
    cases Place.start? path with
    | none => simp
    | some p => simpa using ⟨leads_of_follow, Leads.follow⟩

theorem Proper.entry?_start (ht : t.Proper) {path : String} (h : Place.start? path = some p) :
    t.entry? p = some .directory := by
  rw [Place.start?] at h
  split at h
  · cases h
  · split at h <;> cases h
    · rfl
    · exact ht.entry?_eq_directory.mpr rfl

theorem ne_empty_of_resolve {path : String} (h : t.resolve path = .ok q) : path ≠ "" := by
  rintro rfl
  obtain ⟨-, p, hp, -⟩ := resolve_eq_ok.mp h
  cases hp

/-- Where the way to a directory starts, and where it goes on to what a path is put behind. -/
theorem leads_baseOf {path : String} (h : t.resolve path = .ok q) : ∃ first rest,
    baseOf path = first :: rest ∧
      t.Leads (if first = "" then .inSystem [] else .inRun []) (baseOf path) q := by
  obtain ⟨hbase, idle, hsegments, hidle⟩ := baseOf_append (ne_empty_of_resolve h)
  obtain ⟨first, rest, hfirst⟩ := List.exists_cons_of_ne_nil hbase
  obtain ⟨-, p, hp, hleads⟩ := resolve_eq_ok.mp h
  rw [hsegments] at hleads
  obtain ⟨r, hr, hq⟩ := hleads.split
  rw [hq.eq_of_idle hidle]
  refine ⟨first, rest, hfirst, ?_⟩
  rw [hfirst, List.cons_append] at hsegments
  have hne : first ≠ "" ∨ rest ++ idle ≠ [] := by
    by_contra hnone
    rw [not_or, not_not, not_not] at hnone
    rw [hnone.1, hnone.2] at hsegments
    exact ne_empty_of_resolve h (eq_empty_of_segments hsegments)
  rw [start?_of_segments hsegments hne] at hp
  cases hp
  exact hr

/-- What is in a directory stands below it. -/
theorem resolve_joinPath {directory : String} {inner : List String}
    (hd : t.resolve directory = .ok (.inRun names)) (hinner : inner ≠ [])
    (hnames : ∀ name ∈ inner, IsEntryName name)
    (h : t.resolve (joinPath directory ("/".intercalate inner)) = .ok q) :
    q = .inRun (names ++ inner) := by
  have hsegments := segments_joinPath directory ("/".intercalate inner)
  rw [segments_intercalate hinner fun name hn => (hnames name hn).whole] at hsegments
  obtain ⟨first, rest, hfirst, hbase⟩ := leads_baseOf hd
  obtain ⟨-, p, hp, hleads⟩ := resolve_eq_ok.mp h
  rw [hsegments] at hleads
  rw [hfirst, List.cons_append] at hsegments
  rw [start?_of_segments hsegments (.inr (by simp [hinner]))] at hp
  cases hp
  exact (hbase.of_append hleads).eq_below hnames

/-- How a path below a directory is split. -/
theorem splitName_joinPath (directory : String) {name : String} {front : List String}
    (hfront : ∀ name ∈ front, IsEntryName name) (hname : IsEntryName name) :
    splitName (joinPath directory ("/".intercalate (front ++ [name]))) =
      some (dropIdle (baseOf directory ++ front), name) := by
  have hsegments := segments_joinPath directory ("/".intercalate (front ++ [name]))
  rw [segments_intercalate (by simp) fun part hp => ?_, ← List.append_assoc] at hsegments
  · exact splitName_concat hsegments hname.awake hname.down
  · rcases List.mem_append.mp hp with hp | hp
    · exact (hfront part hp).whole
    · exact List.mem_singleton.mp hp ▸ hname.whole

/-- What is dropped at the end of a path to names below a directory stands before these names. -/
theorem Leads.of_dropIdle_append {base front more : List String} {d : Place}
    (h : t.Leads p base d) (hfront : ∀ name ∈ front, IsEntryName name)
    (h' : t.Leads p (dropIdle (base ++ front) ++ more) q) : t.Leads d (front ++ more) q := by
  rw [dropIdle_append fun name hn => (hfront name hn).awake] at h'
  split at h'
  · next hnil =>
    subst hnil
    exact h.of_dropIdle h'
  · rw [List.append_assoc] at h'
    exact h.of_append h'

/-- The result for something in a directory stands beside it. -/
theorem resolve_outputPath_joinPath {directory name : String} {front : List String}
    (hd : t.resolve directory = .ok (.inRun names)) (hfront : ∀ name ∈ front, IsEntryName name)
    (hname : IsEntryName name)
    (h : t.resolve (outputPath (joinPath directory ("/".intercalate (front ++ [name])))) = .ok q) :
    q = .inRun (names ++ (front ++ [outputName name])) := by
  have hsegments := (splitName_outputPath (splitName_joinPath directory hfront hname)).2
  obtain ⟨first, rest, hfirst, hbase⟩ := leads_baseOf hd
  obtain ⟨-, p, hp, hleads⟩ := resolve_eq_ok.mp h
  rw [hsegments] at hleads
  rw [hfirst, List.cons_append, dropIdle_cons, List.cons_append] at hsegments
  rw [start?_of_segments hsegments (.inr (by simp))] at hp
  cases hp
  refine (hbase.of_dropIdle_append hfront hleads).eq_below fun part hp => ?_
  rcases List.mem_append.mp hp with hp | hp
  · exact hfront part hp
  · exact List.mem_singleton.mp hp ▸ hname.outputName

/-- Only the directories count for where a path leads. -/
theorem resolve_mono {path : String} (h : t.resolve path = .ok q)
    (hd : ∀ p, t.entry? p = some .directory → u.entry? p = some .directory) :
    u.resolve path = .ok q := by
  obtain ⟨hlong, p, hp, hq⟩ := resolve_eq_ok.mp h
  exact resolve_eq_ok.mpr ⟨hlong, p, hp, hq.mono hd⟩

/-- A path that ends in a name, with the place that it starts from and the directory that the name is
looked for in. -/
structure EndsIn (t : FileTree) (path : String) (start d : Place) (front : List String)
    (name : String) : Prop where
  starts : Place.start? path = some start
  segments : segments path = front ++ [name]
  leads : t.Leads start front d
  directory : t.entry? d = some .directory
  stored : IsStoredName name

/-- A path to something that is no directory ends in its name. -/
theorem Proper.endsIn (ht : t.Proper) {path : String} (h : t.resolve path = .ok q)
    (hq : t.entry? q ≠ some .directory) : ∃ start d front name,
      t.EndsIn path start d front name ∧ q = d.child name := by
  obtain ⟨-, p, hp, hleads⟩ := resolve_eq_ok.mp h
  obtain ⟨front, name, d, hsegments, hd, hentry, hawake, hdown, hshort, rfl⟩ :=
    hleads.exists_child ht (ht.entry?_start hp) hq
  have hwhole := whole_of_mem_segments
    (hsegments ▸ List.mem_append_right front (List.mem_singleton_self name))
  exact ⟨p, d, front, name, ⟨hp, hsegments, hd, hentry, ⟨hawake, hdown, hwhole⟩, hshort⟩, rfl⟩

theorem Leads.follow_append {front : List String} {d : Place} (h : t.Leads p front d)
    (more : List String) : t.follow p (front ++ more) = t.follow d more := by
  induction h with
  | here => rfl
  | stay hp hs _ ih => rw [List.cons_append, FileTree.follow, hp, ← ih]; simp [hs]
  | up hp _ ih => rw [List.cons_append, FileTree.follow, hp, ← ih]; simp [isIdle]
  | down hp hs hne hlimit _ ih =>
    rw [List.cons_append, FileTree.follow, hp, ← ih]
    simp [hs, hne, Nat.not_lt_of_le hlimit]

theorem follow_name {name : String} (hp : t.entry? p = some .directory) (hname : IsEntryName name) :
    t.follow p [name] =
      if nameLimit < name.utf8ByteSize then .error .nameTooLong else .ok (p.child name) := by
  rw [follow, hp]
  simp only [hname.awake, hname.down, Bool.false_eq_true, if_false]
  rfl

namespace EndsIn

variable {path name : String} {start d : Place} {front : List String}

theorem splitName (h : t.EndsIn path start d front name) :
    Hoist.splitName path = some (dropIdle front, name) :=
  splitName_concat h.segments h.stored.awake h.stored.down

/-- Only the directories count for where a name is looked for. -/
theorem mono (h : t.EndsIn path start d front name)
    (hd : ∀ p, t.entry? p = some .directory → u.entry? p = some .directory) :
    u.EndsIn path start d front name :=
  ⟨h.starts, h.segments, h.leads.mono hd, hd _ h.directory, h.stored⟩

/-- A path that is not too long leads to its name. -/
theorem resolve (h : t.EndsIn path start d front name) (hlong : isTooLong path = false) :
    t.resolve path = .ok (d.child name) := by
  rw [FileTree.resolve, hlong, h.starts]
  simp only [Bool.false_eq_true, if_false]
  rw [h.segments, h.leads.follow_append, follow_name h.directory h.stored.toIsEntryName,
    if_neg (Nat.not_lt_of_le h.stored.short)]

/-- The result for a file is looked for in the same directory, if its name and its path are not too
long. -/
theorem resolve_outputPath (h : t.EndsIn path start d front name) :
    t.resolve (outputPath path) =
      if isTooLong (outputPath path) || nameLimit < (outputName name).utf8ByteSize then
        .error .nameTooLong
      else .ok (d.child (outputName name)) := by
  have houtput := h.stored.toIsEntryName.outputName
  have hsegments := (splitName_outputPath h.splitName).2
  have hleads : ∃ d', t.Leads start (dropIdle front) d' ∧ d' = d := by
    obtain ⟨idle, hfront, hidle⟩ := exists_dropIdle front
    have hleads := h.leads
    rw [hfront] at hleads
    obtain ⟨r, hr, hd⟩ := hleads.split
    exact ⟨r, hr, (hd.eq_of_idle hidle).symm⟩
  obtain ⟨_, hleads, rfl⟩ := hleads
  have hstart : Place.start? (outputPath path) = some start := by
    have hpath := h.segments
    rw [← h.starts]
    cases front with
    | nil =>
      rw [start?_of_segments hpath (.inl h.stored.ne_empty),
        start?_of_segments hsegments (.inl houtput.ne_empty), if_neg houtput.ne_empty,
        if_neg h.stored.ne_empty]
    | cons first rest =>
      rw [dropIdle_cons] at hsegments
      rw [start?_of_segments hpath (.inr (by simp)), start?_of_segments hsegments (.inr (by simp))]
  rw [FileTree.resolve, hstart]
  simp only
  rw [hsegments, hleads.follow_append, follow_name h.directory houtput]
  cases isTooLong (outputPath path) <;> simp

end EndsIn

theorem sorted_putAmong {fs : List (List String × ByteArray)}
    (h : fs.Pairwise fun f g => f.1 < g.1) :
    (putAmong place content fs).Pairwise fun f g => f.1 < g.1 := by
  induction fs with
  | nil => exact List.pairwise_singleton _ _
  | cons f fs ih =>
    obtain ⟨hf, hfs⟩ := List.pairwise_cons.mp h
    rw [putAmong]
    split
    · next he => exact List.pairwise_cons.mpr ⟨fun g hg => he ▸ hf g hg, hfs⟩
    · next hne =>
      split
      · next hlt =>
        refine List.pairwise_cons.mpr ⟨List.forall_mem_cons.mpr ⟨hlt, fun g hg => ?_⟩, h⟩
        exact lt_trans hlt (hf g hg)
      · next hnlt =>
        have hgt : f.1 < place := (lt_or_gt_of_ne hne).resolve_right hnlt
        refine List.pairwise_cons.mpr ⟨fun g hg => ?_, ih hfs⟩
        rcases mem_putAmong hg with rfl | hg
        · exact hgt
        · exact hf g hg

/-- Names that lead to a directory are names of entries. -/
theorem Proper.names_of_directory (h : t.Proper) (hn : t.isDirectory names = true) :
    ∀ name ∈ names, IsStoredName name := by
  intro name hname
  rw [isDirectory, Bool.or_eq_true, Bool.or_eq_true] at hn
  rcases hn with (hn | hn) | hn
  · rw [List.isEmpty_iff.mp hn] at hname
    cases hname
  · obtain ⟨d, hd, hp⟩ := List.any_eq_true.mp hn
    exact h.directory_names d hd name ((List.isPrefixOf_iff_prefix.mp hp).subset hname)
  · obtain ⟨f, hf, hp⟩ := List.any_eq_true.mp hn
    rw [Bool.and_eq_true] at hp
    exact h.file_names f hf name ((List.isPrefixOf_iff_prefix.mp hp.1).subset hname)

/-- A file that is put into a directory, where no directory stands, leaves all proper. -/
theorem Proper.put (h : t.Proper) {name : String} (hname : IsStoredName name)
    (hd : t.isDirectory names = true) (hfree : t.isDirectory (names ++ [name]) = false)
    (content : ByteArray) : (t.put (names ++ [name]) content).Proper := by
  have hdirectory : (t.put (names ++ [name]) content).isDirectory = t.isDirectory :=
    isDirectory_put (by rwa [List.dropLast_concat])
  refine ⟨fun f hf => ?_, h.directory_names, sorted_putAmong h.sorted, fun f hf => ?_⟩
  · rcases mem_putAmong hf with rfl | hf
    · intro n hn
      rcases List.mem_append.mp hn with hn | hn
      · exact h.names_of_directory hd n hn
      · exact List.mem_singleton.mp hn ▸ hname
    · exact h.file_names f hf
  · rw [hdirectory]
    rcases mem_putAmong hf with rfl | hf
    · exact hfree
    · exact h.apart f hf

/-- What writing a file leaves: what was there, or a new text of the file that the path ends in the
name of. -/
inductive Written (t : FileTree) (path text : String) : FileTree → Prop
  | lost : Written t path text t
  | put {front names : List String} {name : String} : segments path = front ++ [name] →
      IsStoredName name → t.isDirectory names = true → t.isDirectory (names ++ [name]) = false →
        t.resolve path = .ok (.inRun (names ++ [name])) →
          Written t path text (t.put (names ++ [name]) text.toUTF8)

theorem Proper.written (ht : t.Proper) {path text : String} (h : t.write path text = .ok u) :
    t.Written path text u := by
  rw [write] at h
  cases hresolve : t.resolve path with
  | error fault =>
    rw [hresolve] at h
    cases h
  | ok p =>
    rw [hresolve] at h
    simp only [bind, Except.bind] at h
    split at h
    · cases h
    · cases h
      exact .lost
    · next names hne _ =>
      cases h
      obtain ⟨start, d, front, name, hends, hq⟩ := ht.endsIn hresolve (by simpa using hne)
      cases d with
      | inSystem => cases hq
      | inRun directory =>
        obtain rfl : names = directory ++ [name] := Place.inRun.inj hq
        refine .put hends.segments hends.stored (ht.entry?_eq_directory.mp hends.directory) ?_ hresolve
        rw [← Bool.not_eq_true, ← ht.entry?_eq_directory]
        simpa using hne
    · cases h

/-- Writing a file leaves the system proper, and the directories as they are. -/
theorem Written.proper {path text : String} (h : t.Written path text u) (ht : t.Proper) :
    u.Proper ∧ u.directories = t.directories ∧
      ∀ p, u.entry? p = some .directory ↔ t.entry? p = some .directory := by
  cases h with
  | lost => exact ⟨ht, rfl, fun _ => .rfl⟩
  | put _ hname hd hfree _ =>
    refine ⟨ht.put hname hd hfree _, rfl, fun p => ?_⟩
    rw [entry?_put (by rwa [List.dropLast_concat])]
    split
    · next hp => simp [hp, ht.entry?_eq_directory, hfree]
    · rfl

end FileTree

end Hoist
