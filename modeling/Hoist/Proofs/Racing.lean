import Hoist.Proofs.Relocating
import Hoist.Proofs.Searching

namespace Hoist

namespace Step

variable {settings : Settings} {file other : String} {w v : Workspace}

/-- The file that calls are in counts only for what is warned of. -/
theorem exposeSites_file {calls : List NodeId} {found : List CallSite × List Warning}
    (h : exposeSites settings file calls w = .ok found v) (other : String) :
    ∃ warnings, exposeSites settings other calls w = .ok (found.1, warnings) v := by
  induction calls generalizing w found with
  | nil =>
    cases h
    exact ⟨[], rfl⟩
  | cons call calls ih =>
    rw [exposeSites] at h ⊢
    cases hsite : exposeSite settings call w with
    | error refusal x =>
      rw [bind_of_error hsite] at h
      cases h
    | ok site? x =>
      rw [bind_of_ok hsite] at h ⊢
      cases site? with
      | none => exact ih h
      | some site =>
        have hwarning : ∀ file, ∃ warning, warningOf file call site x = .ok warning x := by
          intro file
          rw [warningOf]
          cases site.movability <;> exact ⟨_, rfl⟩
        obtain ⟨warning, hfile⟩ := hwarning file
        obtain ⟨warning', hother⟩ := hwarning other
        simp only at h ⊢
        rw [bind_of_ok hfile] at h
        rw [bind_of_ok hother]
        cases hrest : exposeSites settings file calls x with
        | error refusal y =>
          rw [bind_of_error hrest] at h
          cases h
        | ok rest y =>
          rw [bind_of_ok hrest] at h
          cases h
          obtain ⟨warnings, hwarnings⟩ := ih hrest
          rw [bind_of_ok hwarnings]
          exact ⟨_, rfl⟩

end Step

theorem Tree.exposeCalls_file {t : Tree} {settings : Settings} {file : String} {w v : Workspace}
    {found : List CallSite × List Warning} (h : t.exposeCalls settings file w = .ok found v)
    (other : String) : ∃ warnings, t.exposeCalls settings other w = .ok (found.1, warnings) v := by
  rw [exposeCalls] at h ⊢
  cases hsites : Step.exposeSites settings file (t.callSites settings) w with
  | error refusal x =>
    rw [Step.bind_of_error hsites] at h
    cases h
  | ok sites x =>
    obtain ⟨warnings, hother⟩ := Step.exposeSites_file hsites other
    rw [Step.bind_of_ok hsites] at h
    rw [Step.bind_of_ok hother]
    cases hcheck : Step.ask Tree.check x with
    | error refusal y =>
      rw [Step.bind_of_error hcheck] at h
      cases h
    | ok _ y =>
      rw [Step.bind_of_ok hcheck] at h
      cases h
      rw [Step.bind_of_ok hcheck]
      exact ⟨warnings, rfl⟩

/-- The tree of a program does not depend on its file. -/
theorem readTree_file {file text : String} {t : Tree} (h : readTree file text = .ok t)
    (other : String) : readTree other text = .ok t := by
  unfold readTree readTokens at h ⊢
  cases hlist : tokenize text with
  | error problem =>
    rw [hlist] at h
    cases h
  | ok list =>
    rw [hlist] at h
    change ((parseScript list).mapError _ >>= _) = _ at h
    show ((parseScript list).mapError _ >>= _) = _
    cases hstatements : parseScript list with
    | error problem =>
      rw [hstatements] at h
      cases h
    | ok statements =>
      rw [hstatements] at h
      exact h

/-- What becomes of a program does not depend on its file. -/
theorem decompose_source {settings : Settings} {file other text : String}
    {result result' : Decomposition} (h : decompose settings file text = .ok result)
    (h' : decompose settings other text = .ok result') : result.source = result'.source := by
  cases ht : readTree file text with
  | error problem =>
    rw [decompose, ht] at h
    cases h
  | ok t =>
    rw [decompose, ht] at h
    rw [decompose, readTree_file ht other] at h'
    simp only [bind, Except.bind] at h h'
    cases hrun : t.exposeCalls settings file (.ofTree t settings.tempPrefix) with
    | error refusal w =>
      rw [EStateM.run, hrun] at h
      cases h
    | ok found w =>
      obtain ⟨warnings, hother⟩ := Tree.exposeCalls_file hrun other
      rw [EStateM.run, hrun] at h
      rw [EStateM.run, hother] at h'
      cases h
      cases h'
      rfl

/-- One entry of a list is exchanged where the others are matched as before, or better. -/
theorem forall₂_exchange {α β : Type} {R S : α → β → Prop} {xs : List α} {before behind : List β}
    {y y' : β} (h : List.Forall₂ R xs (before ++ y :: behind))
    (hothers : ∀ x ∈ xs, ∀ z, R x z → S x z) (hy : ∀ x ∈ xs, R x y → S x y') :
    List.Forall₂ S xs (before ++ y' :: behind) := by
  induction before generalizing xs with
  | nil =>
    obtain ⟨x, xs, hx, hxs, rfl⟩ := List.forall₂_cons_right_iff.mp h
    refine .cons (hy x List.mem_cons_self hx) ?_
    clear h hy
    induction hxs with
    | nil => exact .nil
    | cons hz _ ih =>
      exact .cons (hothers _ (by simp) _ hz) (ih fun w hw => hothers w (by
        rcases List.mem_cons.mp hw with rfl | hw
        · exact List.mem_cons_self
        · exact List.mem_cons_of_mem _ (List.mem_cons_of_mem _ hw)))
  | cons z before ih =>
    obtain ⟨x, xs, hx, hxs, rfl⟩ := List.forall₂_cons_right_iff.mp h
    exact .cons (hothers x List.mem_cons_self z hx)
      (ih hxs (fun w hw => hothers w (List.mem_cons_of_mem _ hw))
        fun w hw => hy w (List.mem_cons_of_mem _ hw))

theorem exists_of_forall₂ {α β : Type} {R : α → β → Prop} {xs : List α} {before behind : List β}
    {y : β} (h : List.Forall₂ R xs (before ++ y :: behind)) : ∃ x ∈ xs, R x y := by
  induction before generalizing xs with
  | nil =>
    obtain ⟨x, xs, hx, -, rfl⟩ := List.forall₂_cons_right_iff.mp h
    exact ⟨x, List.mem_cons_self, hx⟩
  | cons z before ih =>
    obtain ⟨x, xs, -, hxs, rfl⟩ := List.forall₂_cons_right_iff.mp h
    obtain ⟨w, hw, hwy⟩ := ih hxs
    exact ⟨w, List.mem_cons_of_mem _ hw, hwy⟩

namespace FileTree

variable {t u : FileTree} {files : List String} {path : String}

/-- Files that do not get in each other's way: different ones have results at different places, and
no result stands where one of them does. -/
structure Apart (t : FileTree) (files : List String) : Prop where
  results : ∀ path ∈ files, ∀ other ∈ files, ∀ p q r, t.resolve path = .ok p →
    t.resolve other = .ok q → t.resolve (outputPath path) = .ok r →
      t.resolve (outputPath other) = .ok r → p = q
  sources : ∀ path ∈ files, ∀ other ∈ files, ∀ p r, t.resolve path = .ok p →
    t.resolve (outputPath path) = .ok r → t.resolve other ≠ .ok r

/-- Where the result for a file that is reached stands. -/
theorem IsReached.exists_child {p r : Place} (h : t.IsReached path) (hp : t.resolve path = .ok p)
    (hr : t.resolve (outputPath path) = .ok r) :
    ∃ (d : Place) (place : List String) (name : String),
      splitName path = some (place, name) ∧ p = d.child name ∧ r = d.child (outputName name) := by
  cases h with
  | long hlong =>
    rw [resolve, hlong] at hp
    cases hp
  | @file start d front name content hends hlong hentry =>
    rw [hends.resolve hlong] at hp
    rw [hends.resolve_outputPath] at hr
    split at hr
    · cases hr
    · cases hp
      cases hr
      exact ⟨d, _, name, hends.splitName, rfl, rfl⟩

theorem read_of_resolve (h : u.resolve path = t.resolve path)
    (hentry : ∀ p, t.resolve path = .ok p → u.entry? p = t.entry? p) :
    u.read path = t.read path := by
  rw [read, read, h]
  cases hp : t.resolve path with
  | error fault => rfl
  | ok p =>
    simp only [bind, Except.bind]
    rw [hentry p hp]

/-- What a system without further directories makes of writing a text: the same fault, or the same
loss, or the same file. -/
inductive WritesAlike (t u : FileTree) (path text : String) : Prop
  | fault {fault : FileFault} : t.write path text = .error fault → u.write path text = .error fault →
      WritesAlike t u path text
  | lost {p : Place} : t.resolve path = .ok p → t.entry? p = some .sink →
      t.write path text = .ok t → u.write path text = .ok u → WritesAlike t u path text
  | put {names : List String} : t.resolve path = .ok (.inRun names) →
      t.entry? (.inRun names) ≠ some .directory → t.write path text = .ok (t.put names text.toUTF8) →
        u.write path text = .ok (u.put names text.toUTF8) → WritesAlike t u path text

section Write

variable {text : String} {fault : FileFault} {p : Place} {names : List String}

theorem write_of_fault (h : t.resolve path = .error fault) : t.write path text = .error fault := by
  rw [write, h]
  rfl

theorem write_of_directory (h : t.resolve path = .ok p) (hp : t.entry? p = some .directory) :
    t.write path text = .error .isDirectory := by
  rw [write, h]
  simp only [bind, Except.bind, hp]
  rfl

theorem write_of_sink (h : t.resolve path = .ok p) (hp : t.entry? p = some .sink) :
    t.write path text = .ok t := by
  rw [write, h]
  simp only [bind, Except.bind, hp]
  rfl

theorem write_of_none (h : t.resolve path = .ok (.inSystem names))
    (hp : t.entry? (.inSystem names) = none) : t.write path text = .error .notFound := by
  rw [write, h]
  simp only [bind, Except.bind, hp]
  rfl

theorem entry?_inRun_ne_sink (names : List String) : t.entry? (.inRun names) ≠ some .sink := by
  rw [ entry?]
  split
  · simp
  · split <;> simp

theorem write_of_inRun (h : t.resolve path = .ok (.inRun names))
    (hp : t.entry? (.inRun names) ≠ some .directory) :
    t.write path text = .ok (t.put names text.toUTF8) := by
  have hsink := entry?_inRun_ne_sink (t := t) names
  rw [write, h]
  simp only [bind, Except.bind]
  rfl

theorem writesAlike (text : String) (h : u.resolve path = t.resolve path)
    (hd : ∀ p, u.entry? p = some .directory ↔ t.entry? p = some .directory) :
    t.WritesAlike u path text := by
  cases hp : t.resolve path with
  | error fault => exact .fault (write_of_fault hp) (write_of_fault (h.trans hp))
  | ok p =>
    by_cases hdirectory : t.entry? p = some .directory
    · exact .fault (write_of_directory hp hdirectory)
        (write_of_directory (h.trans hp) ((hd p).mpr hdirectory))
    · cases p with
      | inRun names =>
        exact .put hp hdirectory (write_of_inRun hp hdirectory)
          (write_of_inRun (h.trans hp) fun he => hdirectory ((hd _).mp he))
      | inSystem names =>
        have hsame : u.entry? (.inSystem names) = t.entry? (.inSystem names) := rfl
        have hsystem : t.entry? (.inSystem names) = some .sink ∨
            t.entry? (.inSystem names) = none := by
          rw [ entry?] at hdirectory ⊢
          split at hdirectory <;> simp_all
        rcases hsystem with hsink | hnone
        · exact .lost hp hsink (write_of_sink hp hsink) (write_of_sink (h.trans hp) (hsame.trans hsink))
        · exact .fault (write_of_none hp hnone) (write_of_none (h.trans hp) (hsame.trans hnone))

end Write

/-- What building a file writes where all goes well: a content, at a place in the directory of the
run. -/
inductive Puts (settings : Settings) (t : FileTree) (path : String) : List String → ByteArray → Prop
  | intro {text : String} {result : Decomposition} {names : List String} :
      t.read path = .ok text → decompose settings path text = .ok result →
        t.resolve (outputPath path) = .ok (.inRun names) →
          t.entry? (.inRun names) ≠ some .directory →
            Puts settings t path names result.source.toUTF8

variable {settings : Settings} {names : List String} {content other : ByteArray} {path' : String}

/-- Files that write to one place are one file, and write the same. -/
theorem Puts.unique (h : Puts settings t path names content)
    (h' : Puts settings t path' names other) (hapart : t.Apart files) (hpath : path ∈ files)
    (hpath' : path' ∈ files) : content = other := by
  obtain ⟨hread, hresult, houtput, -⟩ := h
  obtain ⟨hread', hresult', houtput', -⟩ := h'
  obtain ⟨p, hp, -⟩ := exists_of_read hread
  obtain ⟨q, hq, -⟩ := exists_of_read hread'
  obtain rfl := hapart.results path hpath path' hpath' p q _ hp hq houtput houtput'
  have htext : t.read path' = t.read path := by
    rw [read, read, hp, hq]
  rw [hread, hread'] at htext
  cases htext
  rw [decompose_source hresult hresult']

end FileTree

open FileTree

variable {settings : Settings} {check : Bool} {time : String} {t u : FileTree}
  {files : List String} {path : String} {job : Job}

/-- What a file is in the course of a build of files that are apart: what it would be by itself. Once
it is done, what it writes is there. -/
def Fits (settings : Settings) (check : Bool) (time : String) (t u : FileTree) (path : String) :
    Job → Prop
  | .waiting file => file = path
  | .loaded file result => file = path ∧ check = false ∧
      ∃ text, t.read path = .ok text ∧ decompose settings path text = .ok result
  | .done result => result = ((buildFile (FileTree.access time) settings check path).run t).1 ∧
      (check = false → ∀ names content, Puts settings t path names content →
        u.files.lookup names = some content)

/-- What holds in the course of a build of files that are apart: the directories are what they were,
and so is each file that is not a result. -/
structure Agrees (settings : Settings) (check : Bool) (time : String) (t : FileTree)
    (files : List String) (s : BuildState) : Prop where
  proper : s.tree.Proper
  same : s.tree.directories = t.directories
  directories : ∀ p, s.tree.entry? p = some .directory ↔ t.entry? p = some .directory
  fits : List.Forall₂ (Fits settings check time t s.tree) files s.jobs
  contents : ∀ names, s.tree.files.lookup names = t.files.lookup names ∨
    check = false ∧ ∃ path ∈ files, ∃ content, Puts settings t path names content ∧
      s.tree.files.lookup names = some content

namespace Agrees

variable {s : BuildState}

theorem start (ht : t.Proper) (files : List String) :
    Agrees settings check time t files (.start files t) := by
  refine ⟨ht, rfl, fun _ => .rfl, ?_, fun _ => .inl rfl⟩
  rw [BuildState.start, List.forall₂_map_right_iff, List.forall₂_same]
  exact fun _ _ => rfl

/-- What is no result is what it was. -/
theorem entry? (h : Agrees settings check time t files s) (ht : t.Proper) {p : Place}
    (hp : check = false → ∀ path ∈ files, ∀ names content, Puts settings t path names content →
      p ≠ .inRun names) : s.tree.entry? p = t.entry? p := by
  cases p with
  | inSystem names => rfl
  | inRun names =>
    have hlookup : s.tree.files.lookup names = t.files.lookup names :=
      (h.contents names).resolve_right fun ⟨hcheck, path, hpath, content, hputs, _⟩ =>
        hp hcheck path hpath names content hputs rfl
    have hdirectory := h.directories (.inRun names)
    rw [h.proper.entry?_eq_directory, ht.entry?_eq_directory, ← Bool.eq_iff_iff] at hdirectory
    rw [ FileTree.entry?, FileTree.entry?, hlookup, hdirectory]

/-- Each file of the build is what it was. -/
theorem source (h : Agrees settings check time t files s) (ht : t.Proper) (hapart : t.Apart files)
    (hreached : t.IsReached path) (hpath : path ∈ files) :
    s.tree.resolve path = t.resolve path ∧
      ∀ p, t.resolve path = .ok p → s.tree.entry? p = t.entry? p := by
  refine ⟨?_, fun p hp => h.entry? ht fun _ other hother names content hputs he => ?_⟩
  · cases hreached with
    | long hlong => rw [resolve, resolve, hlong, if_pos rfl, if_pos rfl]
    | file hends hlong _ =>
      rw [hends.resolve hlong, (hends.mono fun p => (h.directories p).mpr).resolve hlong]
  · obtain ⟨hread, -, houtput, -⟩ := hputs
    obtain ⟨q, hq, -⟩ := exists_of_read hread
    exact hapart.sources other hother path hpath q _ hq houtput (he ▸ hp)

/-- The result for a file of the build is looked for where it was. -/
theorem output (h : Agrees settings check time t files s) (ht : t.Proper) {text : String}
    (hread : t.read path = .ok text) :
    s.tree.resolve (outputPath path) = t.resolve (outputPath path) := by
  obtain ⟨p, hp, hentry⟩ := exists_of_read hread
  obtain ⟨start, d, front, name, hends, -⟩ := ht.endsIn hp hentry
  rw [hends.resolve_outputPath, (hends.mono fun p => (h.directories p).mpr).resolve_outputPath]

/-- A file that is read is what it would be by itself. -/
theorem fits_waiting (settings : Settings) (check : Bool) (time : String)
    (h : u.read path = t.read path) :
    Fits settings check time t u path ((Job.waiting path).next settings check u).1 ∧
      ((Job.waiting path).next settings check u).2 = u := by
  have hbuild := buildFile_run time settings check path t
  rw [Job.next, h]
  cases htext : t.read path with
  | error fault =>
    rw [htext] at hbuild
    refine ⟨⟨by rw [hbuild], fun _ names content hputs => ?_⟩, rfl⟩
    obtain ⟨hread, -, -, -⟩ := hputs
    rw [htext] at hread
    cases hread
  | ok text =>
    rw [htext] at hbuild
    simp only at hbuild ⊢
    cases hresult : decompose settings path text with
    | error problem =>
      rw [hresult] at hbuild
      refine ⟨⟨by rw [hbuild], fun _ names content hputs => ?_⟩, rfl⟩
      obtain ⟨hread, hother, -, -⟩ := hputs
      rw [htext] at hread
      cases hread
      rw [hresult] at hother
      cases hother
    | ok result =>
      rw [hresult] at hbuild
      cases check with
      | true =>
        refine ⟨⟨by rw [hbuild]; rfl, fun hcheck => ?_⟩, rfl⟩
        cases hcheck
      | false => exact ⟨⟨rfl, rfl, text, htext, hresult⟩, rfl⟩

/-- A step that changes no file keeps a build as it should be. -/
theorem of_fits {before behind : List Job} {job' : Job}
    (h : Agrees settings check time t files ⟨before ++ job :: behind, u⟩)
    (hjob : ∀ path ∈ files, Fits settings check time t u path job →
      Fits settings check time t u path job') :
    Agrees settings check time t files ⟨before ++ job' :: behind, u⟩ :=
  ⟨h.proper, h.same, h.directories, forall₂_exchange h.fits (fun _ _ _ hz => hz) hjob, h.contents⟩

theorem lookup_put (t : FileTree) (place names : List String) (content : ByteArray) :
    (t.put place content).files.lookup names =
      if names = place then some content else t.files.lookup names :=
  lookup_putAmong t.files

/-- A step that writes a result keeps a build as it should be. -/
theorem of_put {before behind : List Job} {job' : Job} {names : List String} {content : ByteArray}
    {text : String} (h : Agrees settings check time t files ⟨before ++ job :: behind, u⟩)
    (hapart : t.Apart files) (hpath : path ∈ files) (hcheck : check = false)
    (hputs : Puts settings t path names content)
    (hwritten : u.Written (outputPath path) text (u.put names content))
    (hjob : ∀ other ∈ files, Fits settings check time t u other job →
      Fits settings check time t (u.put names content) other job') :
    Agrees settings check time t files ⟨before ++ job' :: behind, u.put names content⟩ := by
  obtain ⟨hproper, hsame, hdirectories⟩ := hwritten.proper h.proper
  refine ⟨hproper, hsame.trans h.same, fun p => (hdirectories p).trans (h.directories p),
    forall₂_exchange h.fits (fun other hother z hz => ?_) hjob, fun place => ?_⟩
  · cases z with
    | waiting file => exact hz
    | loaded file result => exact hz
    | done result =>
      refine ⟨hz.1, fun hcheck place other' hputs' => ?_⟩
      rw [lookup_put]
      split
      · next he => rw [hputs.unique (he ▸ hputs') hapart hpath hother]
      · exact hz.2 hcheck place other' hputs'
  · have hlookup := lookup_put u names place content
    simp only
    rw [hlookup]
    split
    · next he => exact .inr ⟨hcheck, path, hpath, content, he ▸ hputs, rfl⟩
    · exact h.contents place

/-- Writing a result keeps a build of files that are apart as it should be. -/
theorem loaded {before behind : List Job} {text : String} {result : Decomposition}
    (h : Agrees settings false time t files ⟨before ++ .loaded path result :: behind, u⟩)
    (ht : t.Proper) (hapart : t.Apart files) (hpath : path ∈ files)
    (hread : t.read path = .ok text) (hresult : decompose settings path text = .ok result) :
    Agrees settings false time t files
      ⟨before ++ ((Job.loaded path result).next settings false u).1 :: behind,
        ((Job.loaded path result).next settings false u).2⟩ := by
  have hbuild := buildFile_run time settings false path t
  rw [hread] at hbuild
  simp only at hbuild
  rw [hresult] at hbuild
  simp only [Bool.false_eq_true, if_false] at hbuild
  have hputs : ∀ {names content}, Puts settings t path names content →
      content = result.source.toUTF8 ∧ t.resolve (outputPath path) = .ok (.inRun names) ∧
        t.entry? (.inRun names) ≠ some .directory := by
    rintro names content ⟨hread', hresult', houtput, hentry⟩
    rw [hread] at hread'
    cases hread'
    rw [hresult] at hresult'
    cases hresult'
    exact ⟨rfl, houtput, hentry⟩
  rw [Job.next]
  cases writesAlike result.source (h.output ht hread) h.directories with
  | fault hfault hfault' =>
    rw [hfault] at hbuild
    rw [hfault']
    refine h.of_fits fun other _ hother => ?_
    obtain ⟨rfl, -⟩ := hother
    refine ⟨by rw [hbuild], fun _ names content hput => ?_⟩
    obtain ⟨-, houtput, hentry⟩ := hputs hput
    rw [write_of_inRun houtput hentry] at hfault
    cases hfault
  | lost hp hsink hlost hlost' =>
    rw [hlost] at hbuild
    rw [hlost']
    refine h.of_fits fun other _ hother => ?_
    obtain ⟨rfl, -⟩ := hother
    refine ⟨by rw [hbuild], fun _ names content hput => ?_⟩
    obtain ⟨-, houtput, -⟩ := hputs hput
    rw [hp] at houtput
    cases houtput
    exact absurd hsink (entry?_inRun_ne_sink names)
  | put hp hentry hput hput' =>
    rw [hput] at hbuild
    rw [hput']
    refine h.of_put hapart hpath rfl (.intro hread hresult hp hentry) (h.proper.written hput')
      fun other _ hother => ?_
    obtain ⟨rfl, -⟩ := hother
    refine ⟨by rw [hbuild], fun _ names content hput => ?_⟩
    obtain ⟨rfl, houtput, -⟩ := hputs hput
    rw [hp] at houtput
    cases houtput
    rw [lookup_put, if_pos rfl]

/-- A step of any file keeps a build of files that are apart as it should be. -/
theorem step {before behind : List Job}
    (h : Agrees settings check time t files ⟨before ++ job :: behind, u⟩) (ht : t.Proper)
    (hapart : t.Apart files) (hreached : ∀ path ∈ files, t.IsReached path) :
    Agrees settings check time t files
      ⟨before ++ (job.next settings check u).1 :: behind, (job.next settings check u).2⟩ := by
  obtain ⟨path, hpath, hfits⟩ := exists_of_forall₂ h.fits
  cases job with
  | done result => exact h
  | waiting file =>
    obtain rfl : file = path := hfits
    obtain ⟨hresolve, hentry⟩ := h.source ht hapart (hreached file hpath) hpath
    obtain ⟨hnext, hkept⟩ := fits_waiting settings check time (read_of_resolve hresolve hentry)
    rw [hkept]
    refine h.of_fits fun other _ hother => ?_
    obtain rfl : file = other := hother
    exact hnext
  | loaded file result =>
    obtain ⟨rfl, rfl, text, hread, hresult⟩ := hfits
    exact h.loaded ht hapart hpath hread hresult

variable {results other : List (Except Problem (FileReport × List Warning))} {v : FileTree}

end Agrees

namespace Agrees

end Agrees

end Hoist
