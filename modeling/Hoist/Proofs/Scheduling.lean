import Hoist.Build
import Hoist.Proofs.Filing

namespace Hoist

/-- How far a file of a build is. -/
inductive Job
  | waiting (path : String)
  /-- The file is read and decomposed, and the result is still to be written. -/
  | loaded (path : String) (result : Decomposition)
  | done (result : Except Problem (FileReport × List Warning))

namespace Job

/-- What the next step makes of a file and of the system. A file is read and decomposed in one step,
and its result is written in another one. -/
def next (settings : Settings) (check : Bool) (t : FileTree) : Job → Job × FileTree
  | waiting path =>
    match t.read path with
    | .error fault => (done (.error (.ofFile (.unreadableSource fault.message) path)), t)
    | .ok text =>
      match decompose settings path text with
      | .error problem => (done (.error problem), t)
      | .ok result =>
        if check then (done (.ok (⟨path, result.report⟩, result.warnings)), t)
        else (loaded path result, t)
  | loaded path result =>
    match t.write (outputPath path) result.source with
    | .error fault =>
      (done (.error (.ofFile (.unwritableFile fault.message) (outputPath path))), t)
    | .ok u => (done (.ok (⟨path, result.report⟩, result.warnings)), u)
  | done result => (done result, t)

end Job

/-- The files of a build, and the system that they are in. -/
structure BuildState where
  jobs : List Job
  tree : FileTree

/-- How far a build can come, where any file may be the one that takes the next step. -/
inductive Proceeds (settings : Settings) (check : Bool) (s : BuildState) : BuildState → Prop
  | refl : Proceeds settings check s s
  | step {before behind : List Job} {job : Job} {t : FileTree} :
      Proceeds settings check s ⟨before ++ job :: behind, t⟩ →
        Proceeds settings check s
          ⟨before ++ (job.next settings check t).1 :: behind, (job.next settings check t).2⟩

/-- A build in which each file is still to be read. -/
def BuildState.start (paths : List String) (t : FileTree) : BuildState := ⟨paths.map .waiting, t⟩

variable {settings : Settings} {check : Bool} {s v x : BuildState} {t u : FileTree} {path : String}

theorem Proceeds.trans (h : Proceeds settings check s v) (h' : Proceeds settings check v x) :
    Proceeds settings check s x := by
  induction h' with
  | refl => exact h
  | step _ ih => exact .step ih

/-- Files can take their steps where another one stands before them. -/
theorem Proceeds.cons (h : Proceeds settings check s v) (job : Job) :
    Proceeds settings check ⟨job :: s.jobs, s.tree⟩ ⟨job :: v.jobs, v.tree⟩ := by
  induction h with
  | refl => exact .refl
  | @step before behind other t _ ih =>
    exact @Proceeds.step settings check _ (job :: before) behind other t ih

theorem run_bind_lift {α β : Type} (act : StateM FileTree α)
    (rest : α → ExceptT Problem (StateM FileTree) β) (t : FileTree) :
    (((act : ExceptT Problem (StateM FileTree) α) >>= rest).run t) =
      (rest (act t).1).run (act t).2 := rfl

theorem run_bind {α β : Type} (act : ExceptT Problem (StateM FileTree) α)
    (rest : α → ExceptT Problem (StateM FileTree) β) (t : FileTree) :
    (act >>= rest).run t =
      match act.run t with
      | (.ok r, u) => (rest r).run u
      | (.error problem, u) => (.error problem, u) := by
  have hbind : (act >>= rest).run t =
      (ExceptT.bindCont rest (act.run t).1 : StateM FileTree _) (act.run t).2 := rfl
  rw [hbind]
  rcases act.run t with ⟨result | problem, u⟩ <;> rfl

/-- What building a file does to a system. -/
theorem buildFile_run (time : String) (settings : Settings) (check : Bool) (path : String)
    (t : FileTree) : (buildFile (FileTree.access time) settings check path).run t =
      match t.read path with
      | .error fault => (.error (.ofFile (.unreadableSource fault.message) path), t)
      | .ok text =>
        match decompose settings path text with
        | .error problem => (.error problem, t)
        | .ok result =>
          if check then (.ok (⟨path, result.report⟩, result.warnings), t)
          else
            match t.write (outputPath path) result.source with
            | .error fault =>
              (.error (.ofFile (.unwritableFile fault.message) (outputPath path)), t)
            | .ok u => (.ok (⟨path, result.report⟩, result.warnings), u) := by
  have hread : (FileTree.access time).read path t =
      ((t.read path).mapError FileFault.message, t) := rfl
  rw [buildFile, run_bind_lift, hread]
  cases t.read path with
  | error fault => rfl
  | ok text =>
    simp only [Except.mapError]
    cases decompose settings path text with
    | error problem => rfl
    | ok result =>
      cases check with
      | true => rfl
      | false =>
        have hwrite : (FileTree.access time).write (outputPath path) result.source t =
            FileTree.writeText (outputPath path) result.source t := rfl
        simp only [ofExcept, pure_bind, Bool.not_false, if_true, Bool.false_eq_true, if_false]
        rw [run_bind_lift, hwrite, FileTree.writeText]
        cases t.write (outputPath path) result.source with
        | error fault => rfl
        | ok u => rfl

end Hoist
