import Hoist.CommandLine
import Hoist.Proofs.Scheduling
import Mathlib.Data.List.Sort

namespace Hoist

namespace FileTree

variable {t u : FileTree} {names place inner : List String} {content : ByteArray} {path : String}

theorem mem_insertNames {lists : List (List String)} :
    inner ∈ insertNames names lists ↔ inner = names ∨ inner ∈ lists := by
  induction lists with
  | nil => simp [insertNames]
  | cons other rest ih =>
    rw [insertNames]
    split
    · next he => simp [he]
    · split
      · simp
      · simp [ih, or_left_comm]

theorem sorted_insertNames {lists : List (List String)} (h : lists.Pairwise (· < ·)) :
    (insertNames names lists).Pairwise (· < ·) := by
  induction lists with
  | nil => exact List.pairwise_singleton _ _
  | cons other rest ih =>
    obtain ⟨hother, hrest⟩ := List.pairwise_cons.mp h
    rw [insertNames]
    split
    · exact h
    · next hne =>
      split
      · next hlt =>
        exact List.pairwise_cons.mpr
          ⟨List.forall_mem_cons.mpr ⟨hlt, fun l hl => lt_trans hlt (hother l hl)⟩, h⟩
      · next hnlt =>
        refine List.pairwise_cons.mpr ⟨fun l hl => ?_, ih hrest⟩
        rcases mem_insertNames.mp hl with rfl | hl
        · exact (lt_or_gt_of_ne hne).resolve_right hnlt
        · exact hother l hl

theorem mem_foldr_insertNames {lists : List (List String)} :
    inner ∈ lists.foldr insertNames [] ↔ inner ∈ lists := by
  induction lists with
  | nil => rfl
  | cons names rest ih => rw [List.foldr_cons, mem_insertNames, ih, List.mem_cons]

theorem sorted_filesBelow (t : FileTree) (path : String) (names : List String) :
    (t.filesBelow path names).Pairwise (· < ·) := by
  have hsorted : ∀ lists : List (List String), (lists.foldr insertNames []).Pairwise (· < ·) := by
    intro lists
    induction lists with
    | nil => exact List.Pairwise.nil
    | cons names rest ih => exact sorted_insertNames ih
  exact hsorted _

/-- What a search below a directory comes to. -/
inductive Reaches (t : FileTree) (path : String) (names : List String) : List String → Prop
  | file {inner : List String} {content : ByteArray} : (names ++ inner, content) ∈ t.files →
      barrier? path inner.dropLast = none → Reaches t path names inner
  | barred {inner found : List String} {content : ByteArray} :
      (names ++ inner, content) ∈ t.files → barrier? path inner.dropLast = some found →
        Reaches t path names found
  | closed {inner found : List String} : names ++ inner ∈ t.directories →
      barrier? path inner = some found → Reaches t path names found

theorem below_eq_some {names place inner : List String} :
    (if names.isPrefixOf place then some (place.drop names.length) else none) = some inner ↔
      place = names ++ inner := by
  rw [Option.ite_none_right_eq_some, List.isPrefixOf_iff_prefix, Option.some.injEq]
  constructor
  · rintro ⟨⟨rest, rfl⟩, rfl⟩
    simp
  · rintro rfl
    exact ⟨List.prefix_append _ _, by simp⟩

theorem mem_filesBelow : inner ∈ t.filesBelow path names ↔ t.Reaches path names inner := by
  rw [filesBelow, mem_foldr_insertNames, List.mem_append, List.mem_map, List.mem_filterMap]
  simp only [List.mem_filterMap, below_eq_some]
  constructor
  · rintro (⟨other, ⟨⟨place, content⟩, hf, rfl⟩, rfl⟩ | ⟨other, ⟨d, hd, rfl⟩, hbarrier⟩)
    · cases hbarrier : barrier? path other.dropLast with
      | none => exact .file hf hbarrier
      | some found => exact .barred hf hbarrier
    · exact .closed hd hbarrier
  · rintro (⟨hf, hbarrier⟩ | ⟨hf, hbarrier⟩ | ⟨hd, hbarrier⟩)
    · exact .inl ⟨_, ⟨_, hf, rfl⟩, by rw [hbarrier]; rfl⟩
    · exact .inl ⟨_, ⟨_, hf, rfl⟩, by rw [hbarrier]; rfl⟩
    · exact .inr ⟨_, ⟨_, hd, rfl⟩, hbarrier⟩

theorem barrier?_append {found : List String} (more : List String)
    (h : barrier? path names = some found) : barrier? path (names ++ more) = some found := by
  induction names generalizing path found with
  | nil => cases h
  | cons name names ih =>
    rw [List.cons_append]
    rw [barrier?] at h ⊢
    split at h
    · next hlong => rw [if_pos hlong]; exact h
    · next hlong =>
      rw [if_neg hlong]
      obtain ⟨rest, hrest, rfl⟩ := Option.map_eq_some_iff.mp h
      rw [ih hrest]
      rfl

/-- Whatever leads to a directory below another one and can not be entered was come to already. -/
theorem Reaches.of_directory {found : List String} (h : t.isDirectory (names ++ inner) = true)
    (hbarrier : barrier? path inner = some found) : t.Reaches path names found := by
  rw [isDirectory, Bool.or_eq_true, Bool.or_eq_true] at h
  rcases h with (h | h) | h
  · rw [List.isEmpty_iff, List.append_eq_nil_iff] at h
    rw [h.2] at hbarrier
    cases hbarrier
  · obtain ⟨d, hd, hp⟩ := List.any_eq_true.mp h
    obtain ⟨rest, rfl⟩ := List.isPrefixOf_iff_prefix.mp hp
    rw [List.append_assoc] at hd
    exact .closed hd (barrier?_append rest hbarrier)
  · obtain ⟨⟨place, content⟩, hf, hp⟩ := List.any_eq_true.mp h
    rw [Bool.and_eq_true, decide_eq_true_eq, List.isPrefixOf_iff_prefix] at hp
    obtain ⟨⟨rest, rfl⟩, hne⟩ := hp
    have hrest : rest ≠ [] := fun he => hne (by simp [he])
    rw [List.append_assoc] at hf
    refine .barred hf ?_
    rw [List.dropLast_append_of_ne_nil hrest]
    exact barrier?_append rest.dropLast hbarrier

theorem mem_putAmong_self (fs : List (List String × ByteArray)) :
    (place, content) ∈ putAmong place content fs :=
  mem_of_lookup (by rw [lookup_putAmong, if_pos rfl])

theorem mem_putAmong_of_mem (place : List String) (content : ByteArray)
    {fs : List (List String × ByteArray)} {f : List String × ByteArray} (h : f ∈ fs) :
    ∃ c, (f.1, c) ∈ putAmong place content fs := by
  induction fs with
  | nil => cases h
  | cons g fs ih =>
    rw [putAmong]
    split
    · next hg =>
      rcases List.mem_cons.mp h with rfl | h
      · exact ⟨content, by rw [hg]; exact List.mem_cons_self⟩
      · exact ⟨f.2, List.mem_cons_of_mem _ h⟩
    · split
      · exact ⟨f.2, List.mem_cons_of_mem _ h⟩
      · rcases List.mem_cons.mp h with rfl | h
        · exact ⟨f.2, List.mem_cons_self⟩
        · obtain ⟨c, hc⟩ := ih h
          exact ⟨c, List.mem_cons_of_mem _ hc⟩

/-- A file that is put into a directory is all that a search comes to besides what it came to. -/
theorem reaches_put (h : t.isDirectory place.dropLast = true) :
    (t.put place content).Reaches path names inner ↔
      t.Reaches path names inner ∨ place = names ++ inner ∧ barrier? path inner.dropLast = none := by
  constructor
  · rintro (⟨hf, hbarrier⟩ | ⟨hf, hbarrier⟩ | ⟨hd, hbarrier⟩)
    · rcases mem_putAmong hf with he | hf
      · exact .inr ⟨(Prod.mk.inj he).1.symm, hbarrier⟩
      · exact .inl (.file hf hbarrier)
    · rcases mem_putAmong hf with he | hf
      · obtain ⟨rfl, -⟩ := Prod.mk.inj he
        refine .inl (.of_directory ?_ hbarrier)
        rwa [List.dropLast_append_of_ne_nil] at h
        rintro rfl
        cases hbarrier
      · exact .inl (.barred hf hbarrier)
    · exact .inl (.closed hd hbarrier)
  · rintro ((⟨hf, hbarrier⟩ | ⟨hf, hbarrier⟩ | ⟨hd, hbarrier⟩) | ⟨rfl, hbarrier⟩)
    · obtain ⟨c, hc⟩ := mem_putAmong_of_mem place content hf
      exact .file hc hbarrier
    · obtain ⟨c, hc⟩ := mem_putAmong_of_mem place content hf
      exact .barred hc hbarrier
    · exact .closed hd hbarrier
    · exact .file (mem_putAmong_self _) hbarrier

/-- The scripts below a directory, by the names that lead to them. -/
def scriptsBelow (t : FileTree) (path : String) (names : List String) : List (List String) :=
  (t.filesBelow path names).filter fun place => place.getLast?.any isScriptName

/-- A file that is put into a directory and is no script leaves the scripts as they are. -/
theorem scriptsBelow_put {name : String} (h : t.isDirectory place = true)
    (hname : isScriptName name = false) :
    (t.put (place ++ [name]) content).scriptsBelow path names = t.scriptsBelow path names := by
  rw [scriptsBelow, scriptsBelow]
  refine List.Pairwise.eq_of_mem_iff ((sorted_filesBelow _ _ _).filter _)
    ((sorted_filesBelow _ _ _).filter _) fun inner => ?_
  rw [List.mem_filter, List.mem_filter, mem_filesBelow, mem_filesBelow,
    reaches_put (by rwa [List.dropLast_concat]), or_and_right, or_iff_left_iff_imp]
  rintro ⟨⟨he, -⟩, hscript⟩
  obtain ⟨last, hlast, hscript⟩ := (Option.any_eq_true _ _).mp hscript
  have hname' := congrArg List.getLast? he
  rw [List.getLast?_concat, List.getLast?_append, hlast] at hname'
  obtain rfl : name = last := Option.some.inj hname'
  rw [hname] at hscript
  cases hscript

/-- A later system that is searched as an earlier one. -/
structure SearchedAs (t u : FileTree) : Prop where
  proper : u.Proper
  directories : ∀ p, u.entry? p = some .directory ↔ t.entry? p = some .directory
  scripts : ∀ path names, u.scriptsBelow path names = t.scriptsBelow path names

variable {v : FileTree}

theorem SearchedAs.refl (h : t.Proper) : t.SearchedAs t := ⟨h, fun _ => .rfl, fun _ _ => rfl⟩

theorem SearchedAs.trans (h : t.SearchedAs u) (h' : u.SearchedAs v) : t.SearchedAs v :=
  ⟨h'.proper, fun p => (h'.directories p).trans (h.directories p), fun path names =>
    (h'.scripts path names).trans (h.scripts path names)⟩

theorem Written.searchedAs {text name : String} {front : List String} (h : t.Written path text u)
    (ht : t.Proper) (hpath : segments path = front ++ [name]) (hname : isScriptName name = false) :
    t.SearchedAs u := by
  obtain ⟨hu, -, hdirectories⟩ := h.proper ht
  refine ⟨hu, hdirectories, fun path' names => ?_⟩
  cases h with
  | lost => rfl
  | put hsegments _ hd _ _ =>
    obtain ⟨-, he⟩ := List.append_inj' (hsegments.symm.trans hpath) rfl
    rw [List.cons.inj he |>.1]
    exact scriptsBelow_put hd hname

theorem find?_eq_directory : t.find? path = some .directory ↔
    ∃ p, t.resolve path = .ok p ∧ t.entry? p = some .directory := by
  rw [find?]
  cases t.resolve path <;> simp

/-- The paths of the scripts below a directory that a path leads to. -/
def scriptsAt (t : FileTree) (path : String) : Place → List String
  | .inRun names =>
    (t.scriptsBelow path names).map fun place => joinPath path ("/".intercalate place)
  | .inSystem _ => []

/-- A directory is asked for its scripts. -/
theorem filesAt_directory (time : String) {p : Place} (hp : t.resolve path = .ok p)
    (hentry : t.entry? p = some .directory) :
    (filesAt (access time) path).run t = (.ok (t.scriptsAt path p), t) := by
  have hkind : (access time).kindOf path t = (some .directory, t) := by
    show ((t.find? path).bind FileEntry.kind?, t) = _
    rw [find?_eq_directory.mpr ⟨p, hp, hentry⟩]
    rfl
  have hunder : (access time).filesUnder path t =
      ((t.filesUnder path).mapError fun f => (path, f.message), t) := rfl
  rw [filesUnder, hp] at hunder
  simp only [bind, Except.bind, hentry] at hunder
  rw [filesAt, run_bind_lift, hkind]
  simp only
  rw [scriptsUnder, run_bind_lift, hunder]
  cases p with
  | inRun names => rfl
  | inSystem names => rfl

theorem findScripts_directory (time : String) {p : Place} (hp : t.resolve path = .ok p)
    (hentry : t.entry? p = some .directory) :
    (findScripts (access time) [path]).run t = (.ok (t.scriptsAt path p), t) := by
  have hnone : (findScripts (access time) []).run t = (.ok [], t) := rfl
  rw [findScripts, run_bind, filesAt_directory time hp hentry]
  simp only
  rw [run_bind, hnone]
  simp only [List.append_nil]
  rfl

theorem SearchedAs.scriptsAt (h : t.SearchedAs u) (path : String) (p : Place) :
    u.scriptsAt path p = t.scriptsAt path p := by
  cases p with
  | inRun names => rw [FileTree.scriptsAt, FileTree.scriptsAt, h.scripts]
  | inSystem names => rfl

/-- What is searched as before gives the scripts that it gave. -/
theorem SearchedAs.findScripts (h : t.SearchedAs u) (time : String) {files : List String}
    (hpath : t.find? path = some .directory)
    (hfiles : (findScripts (access time) [path]).run t = (.ok files, t)) :
    (Hoist.findScripts (access time) [path]).run u = (.ok files, u) := by
  obtain ⟨p, hp, hentry⟩ := find?_eq_directory.mp hpath
  rw [findScripts_directory time hp hentry] at hfiles
  rw [findScripts_directory time (resolve_mono hp fun p => (h.directories p).mpr)
    ((h.directories p).mpr hentry), h.scriptsAt]
  exact congrArg (·, u) (Prod.mk.inj hfiles).1

/-- A file that can be read is reached by a path that is not too long. -/
theorem exists_of_read {text : String} (h : t.read path = .ok text) :
    ∃ p, t.resolve path = .ok p ∧ t.entry? p ≠ some .directory := by
  rw [read] at h
  cases hp : t.resolve path with
  | error fault =>
    rw [hp] at h
    cases h
  | ok p =>
    rw [hp] at h
    refine ⟨p, rfl, fun hentry => ?_⟩
    simp only [bind, Except.bind, hentry] at h
    cases h

/-- A file that can be read is named by the end of its path. -/
theorem Proper.splitName_of_read (ht : t.Proper) {text : String} (h : t.read path = .ok text) :
    ∃ directory name, splitName path = some (directory, name) := by
  obtain ⟨p, hp, hentry⟩ := exists_of_read h
  obtain ⟨start, d, front, name, hends, -⟩ := ht.endsIn hp hentry
  exact ⟨_, _, hends.splitName⟩

section Reached

variable {front : List String} {directory name : String} {p : Place}

/-- A file that a build can be asked for: its path is too long, or leads to the file. -/
inductive IsReached (t : FileTree) (path : String) : Prop
  | long : isTooLong path = true → IsReached t path
  | file {start d : Place} {front : List String} {name : String} {content : ByteArray} :
      t.EndsIn path start d front name → isTooLong path = false →
        t.entry? (d.child name) = some (.file content) → IsReached t path

end Reached

end FileTree

open FileTree

variable {settings : Settings} {check : Bool} {s v : BuildState} {t u : FileTree} {job : Job}

/-- A file whose result is still to be written is named by the end of its path. -/
def Job.Named : Job → Prop
  | loaded path _ => ∃ directory name, splitName path = some (directory, name)
  | _ => True

/-- A step of a file changes nothing that is searched for. -/
theorem Job.next_searchedAs (settings : Settings) (check : Bool) (ht : t.Proper)
    (hjob : job.Named) :
    (job.next settings check t).1.Named ∧ t.SearchedAs (job.next settings check t).2 := by
  cases job with
  | done result => exact ⟨trivial, .refl ht⟩
  | waiting path =>
    rw [next]
    cases htext : t.read path with
    | error fault => exact ⟨trivial, .refl ht⟩
    | ok text =>
      simp only
      cases decompose settings path text with
      | error problem => exact ⟨trivial, .refl ht⟩
      | ok result =>
        cases check with
        | true => exact ⟨trivial, .refl ht⟩
        | false => exact ⟨ht.splitName_of_read htext, .refl ht⟩
  | loaded path result =>
    rw [next]
    cases hwrite : t.write (outputPath path) result.source with
    | error fault => exact ⟨trivial, .refl ht⟩
    | ok u =>
      obtain ⟨directory, name, hname⟩ := hjob
      refine ⟨trivial, (ht.written hwrite).searchedAs ht (splitName_outputPath hname).2 ?_⟩
      exact isScriptName_outputName (splitName_eq_some hname).1.ne_empty

/-- A build changes nothing that is searched for, whatever order its files take their steps in. -/
theorem Proceeds.searchedAs (h : Proceeds settings check s v) (ht : s.tree.Proper)
    (hjobs : ∀ job ∈ s.jobs, job.Named) :
    (∀ job ∈ v.jobs, job.Named) ∧ s.tree.SearchedAs v.tree := by
  induction h with
  | refl => exact ⟨hjobs, .refl ht⟩
  | step _ ih =>
    obtain ⟨hnamed, hsearched⟩ := ih
    obtain ⟨hjob, hnext⟩ := Job.next_searchedAs settings check hsearched.proper
      (hnamed _ (List.mem_append_right _ List.mem_cons_self))
    refine ⟨fun job hmem => ?_, hsearched.trans hnext⟩
    rcases List.mem_append.mp hmem with hmem | hmem
    · exact hnamed job (List.mem_append_left _ hmem)
    · rcases List.mem_cons.mp hmem with rfl | hmem
      · exact hjob
      · exact hnamed job (List.mem_append_right _ (List.mem_cons_of_mem _ hmem))

/-- An action that leaves the system as it is. -/
def Quiet {α : Type} (act : StateM FileTree α) : Prop := ∀ t, (act.run t).2 = t

section Quiet

variable {α β : Type}

/-- What follows quietly on an action leaves the system as the action does. -/
theorem run_bind_of_quiet {x : StateM FileTree α} {rest : α → StateM FileTree β}
    (hrest : ∀ result, Quiet (rest result)) (t : FileTree) :
    ((x >>= rest).run t).2 = (x.run t).2 := hrest _ _

theorem Quiet.bind {x : StateM FileTree α} {rest : α → StateM FileTree β} (h : Quiet x)
    (hrest : ∀ result, Quiet (rest result)) : Quiet (x >>= rest) :=
  fun t => (run_bind_of_quiet hrest t).trans (h t)

variable (time : String)

end Quiet

/-- A script that is found in a directory, with the way to it from there and its name. -/
structure IsFound (t : FileTree) (directory : String) (front : List String) (name path : String) :
    Prop where
  base : ∃ names, t.resolve directory = .ok (.inRun names)
  way : ∀ part ∈ front, IsEntryName part
  entry : IsEntryName name
  script : isScriptName name = true
  eq : path = joinPath directory ("/".intercalate (front ++ [name]))

namespace IsFound

variable {directory path path' name name' : String} {names front front' : List String}

theorem splitName (h : IsFound t directory front name path) :
    Hoist.splitName path = some (dropIdle (baseOf directory ++ front), name) :=
  h.eq ▸ splitName_joinPath directory h.way h.entry

/-- Where the result for a script stands, and where the script. -/
theorem resolve (h : IsFound t directory front name path) {p : Place}
    (hd : t.resolve directory = .ok (.inRun names)) :
    (t.resolve path = .ok p → p = .inRun (names ++ (front ++ [name]))) ∧
      (t.resolve (outputPath path) = .ok p → p = .inRun (names ++ (front ++ [outputName name]))) := by
  rw [h.eq]
  refine ⟨resolve_joinPath hd (by simp) fun part hp => ?_,
    resolve_outputPath_joinPath hd h.way h.entry⟩
  rcases List.mem_append.mp hp with hp | hp
  · exact h.way part hp
  · exact List.mem_singleton.mp hp ▸ h.entry

end IsFound

end Hoist
