import Hoist.FilePath
import Mathlib.Data.List.DropRight
import Mathlib.Data.List.Infix
import Mathlib.Data.List.TakeDrop

namespace Hoist

/-- What cutting a name at its last dot gives, where something stands before that dot. -/
theorem cutName_append {front : String} (hfront : front ≠ "") (back : String)
    (hback : '.' ∉ back.toList) :
    cutName (front ++ "." ++ back) = (front, some back) := by
  have hreverse : (front ++ "." ++ back).toList.reverse =
      back.toList.reverse ++ '.' :: front.toList.reverse := by simp
  have hdots : ∀ c ∈ back.toList.reverse, (c != '.') = true := by
    intro c hc
    rw [bne_iff_ne]
    rintro rfl
    exact hback (List.mem_reverse.mp hc)
  have hspan : (front ++ "." ++ back).toList.reverse.span (· != '.') =
      (back.toList.reverse, '.' :: front.toList.reverse) := by
    rw [hreverse, List.span_eq_takeWhile_dropWhile, List.takeWhile_append_of_pos hdots,
      List.dropWhile_append_of_pos hdots]
    simp
  obtain ⟨c, cs, hcs⟩ : ∃ c cs, front.toList.reverse = c :: cs := by
    refine List.exists_cons_of_ne_nil fun he => hfront ?_
    simpa using he
  rw [cutName, hspan, hcs]
  simp only [List.reverse_reverse, String.ofList_toList]
  rw [← hcs, List.reverse_reverse, String.ofList_toList]

/-- A name is cut at its last dot, or not at all. -/
theorem cutName_cases (name : String) : cutName name = (name, none) ∨
    ∃ front back, front ≠ "" ∧ name = front ++ "." ++ back ∧ cutName name = (front, some back) := by
  have hspan := List.span_eq_takeWhile_dropWhile (· != '.') name.toList.reverse
  have hjoin := List.takeWhile_append_dropWhile (p := (· != '.')) (l := name.toList.reverse)
  have hhead := List.head?_dropWhile_not (· != '.') name.toList.reverse
  rw [cutName, hspan]
  generalize name.toList.reverse.takeWhile (· != '.') = ending at hjoin
  generalize name.toList.reverse.dropWhile (· != '.') = rest at hjoin hhead
  match rest with
  | d :: c :: cs =>
    obtain rfl : d = '.' := by simpa using hhead
    refine .inr ⟨String.ofList (c :: cs).reverse, String.ofList ending.reverse, ?_, ?_, rfl⟩
    · exact fun he => by simpa using congrArg String.toList he
    · refine String.toList_inj.mp (List.reverse_inj.mp ?_)
      rw [← hjoin]
      simp
  | [] | [_] => exact .inl rfl

theorem stem_ne_empty {name : String} (h : name ≠ "") : stem name ≠ "" := by
  rcases cutName_cases name with hcut | ⟨front, back, hfront, -, hcut⟩ <;> rw [stem, hcut]
  · exact h
  · exact hfront

theorem stem_outputName {name : String} : stem (outputName name) = stem name ++ ".decomposed" := by
  have hne : stem name ++ ".decomposed" ≠ "" := fun he => by
    simpa using congrArg String.toList he
  have hcut := cutName_append hne "js" (by decide)
  have houtput : outputName name = stem name ++ ".decomposed" ++ "." ++ "js" := by
    rw [outputName, String.append_assoc, String.append_assoc]
    rfl
  rw [houtput, stem, hcut]

/-- What is written for a file is not taken for a script. -/
theorem isScriptName_outputName {name : String} (h : name ≠ "") :
    isScriptName (outputName name) = false := by
  have hcut := cutName_append (stem_ne_empty h) "decomposed" (by decide)
  have hstem : stem (outputName name) = stem name ++ "." ++ "decomposed" := by
    rw [stem_outputName, String.append_assoc]
    rfl
  rw [isScriptName, hstem, extension?, extension?, hcut]
  simp

/-- A name that something in a directory can have. -/
structure IsEntryName (name : String) : Prop where
  awake : isIdle name = false
  down : name ≠ ".."
  whole : '/' ∉ name.toList

instance (name : String) : Decidable (IsEntryName name) :=
  decidable_of_iff (isIdle name = false ∧ name ≠ ".." ∧ '/' ∉ name.toList)
    ⟨fun ⟨awake, down, whole⟩ => ⟨awake, down, whole⟩, fun h => ⟨h.awake, h.down, h.whole⟩⟩

theorem IsEntryName.ne_empty {name : String} (h : IsEntryName name) : name ≠ "" := by
  rintro rfl
  exact absurd h.awake (by decide)

/-- What is written for a file has a name that something in a directory can have. -/
theorem IsEntryName.outputName {name : String} (h : IsEntryName name) :
    IsEntryName (outputName name) := by
  have hlong : (Hoist.outputName name).length ≥ 14 := by
    have hlength : ".decomposed.js".length = 14 := by decide
    rw [Hoist.outputName, String.length_append]
    omega
  refine ⟨?_, ?_, ?_⟩
  · rw [isIdle, Bool.or_eq_false_iff, decide_eq_false_iff_not, decide_eq_false_iff_not]
    constructor <;> intro he <;> rw [he] at hlong <;> exact absurd hlong (by decide)
  · intro he
    rw [he] at hlong
    exact absurd hlong (by decide)
  · have hstem : '/' ∉ (stem name).toList := by
      rcases cutName_cases name with hcut | ⟨front, back, -, hname, hcut⟩ <;> rw [stem, hcut]
      · exact h.whole
      · refine fun hm => h.whole ?_
        rw [hname]
        simp [hm]
    rw [Hoist.outputName, String.toList_append, List.mem_append, not_or]
    exact ⟨hstem, by decide⟩

theorem notMem_of_mem_splitOn {a : Char} {cs : List Char} :
    ∀ l ∈ cs.splitOn a, a ∉ l := by
  induction cs with
  | nil => simp
  | cons c cs ih =>
    rw [List.splitOn_cons_eq_if_modifyHead]
    split
    · exact List.forall_mem_cons.mpr ⟨List.not_mem_nil, ih⟩
    · next hc =>
      obtain ⟨l, ls, hls⟩ := List.exists_cons_of_ne_nil (List.splitOn_ne_nil a cs)
      rw [hls] at ih ⊢
      obtain ⟨hl, hrest⟩ := List.forall_mem_cons.mp ih
      refine List.forall_mem_cons.mpr ⟨?_, hrest⟩
      rw [List.mem_cons, not_or]
      exact ⟨fun he => hc (by simp [he]), hl⟩

theorem whole_of_mem_segments {path segment : String} (h : segment ∈ segments path) :
    '/' ∉ segment.toList := by
  obtain ⟨cs, hcs, rfl⟩ := List.mem_map.mp h
  rw [String.toList_ofList]
  exact notMem_of_mem_splitOn cs hcs

/-- Segments that are joined by slashes are the segments of what comes of it. -/
theorem segments_intercalate {parts : List String} (hparts : parts ≠ [])
    (hwhole : ∀ part ∈ parts, '/' ∉ part.toList) : segments ("/".intercalate parts) = parts := by
  have hsplit : ("/".intercalate parts).toList.splitOn '/' = parts.map String.toList := by
    rw [String.toList_intercalate]
    exact List.splitOn_intercalate '/' (by simpa using hwhole) (by simpa using hparts)
  rw [segments, hsplit, List.map_map]
  simp [Function.comp_def]

theorem segments_append (path more : String) :
    segments (path ++ "/" ++ more) = segments path ++ segments more := by
  have hsplit : (path ++ "/" ++ more).toList.splitOn '/' =
      path.toList.splitOn '/' ++ more.toList.splitOn '/' := by
    rw [← List.splitOn_append_cons_self]
    simp
  rw [segments, hsplit, List.map_append]
  rfl

/-- The segments before what a path is put behind. -/
def baseOf (directory : String) : List String :=
  if directory = "" then []
  else if directory.toList.getLast? = some '/' then (segments directory).dropLast
  else segments directory

theorem segments_concat_slash (front : String) :
    segments (front ++ "/") = segments front ++ [""] := by
  have happend := segments_append front ""
  rwa [String.append_empty] at happend

theorem segments_ne_nil (path : String) : segments path ≠ [] := by
  simp [segments, List.splitOn_ne_nil]

theorem eq_empty_of_segments {path : String} (h : segments path = [""]) : path = "" := by
  have hjoin : ['/'].intercalate (path.toList.splitOn '/') = path.toList :=
    List.intercalate_splitOn '/'
  have hsplit : path.toList.splitOn '/' = [[]] := by
    have hlists := congrArg (List.map String.toList) h
    simpa [segments, Function.comp_def] using hlists
  rw [hsplit] at hjoin
  exact String.toList_inj.mp (by simpa using hjoin.symm)

/-- What a path is put behind leads to the same place. -/
theorem baseOf_append {directory : String} (h : directory ≠ "") : baseOf directory ≠ [] ∧
    ∃ idle, segments directory = baseOf directory ++ idle ∧ ∀ part ∈ idle, isIdle part = true := by
  rw [baseOf, if_neg h]
  by_cases hslash : directory.toList.getLast? = some '/'
  · obtain ⟨front, hfront⟩ := List.getLast?_eq_some_iff.mp hslash
    obtain rfl : directory = String.ofList front ++ "/" :=
      String.toList_inj.mp (by rw [hfront]; simp)
    rw [if_pos hslash, segments_concat_slash, List.dropLast_concat]
    exact ⟨segments_ne_nil _, [""], rfl, by simp [isIdle]⟩
  · rw [if_neg hslash]
    exact ⟨segments_ne_nil _, [], by simp, by simp⟩

theorem segments_joinPath (directory path : String) :
    segments (joinPath directory path) = baseOf directory ++ segments path := by
  rw [joinPath, baseOf]
  by_cases hempty : directory = ""
  · subst hempty
    simp
  · rw [if_neg hempty]
    by_cases hslash : directory.toList.getLast? = some '/'
    · obtain ⟨front, hfront⟩ := List.getLast?_eq_some_iff.mp hslash
      obtain rfl : directory = String.ofList front ++ "/" :=
        String.toList_inj.mp (by rw [hfront]; simp)
      rw [if_pos (.inr hslash), if_pos hslash, segments_append, segments_concat_slash,
        List.dropLast_concat]
    · rw [if_neg (by simp [hempty, hslash]), if_neg hslash, segments_append]

theorem dropIdle_cons (first : String) (rest : List String) :
    dropIdle (first :: rest) = first :: rest.rdropWhile isIdle := rfl

/-- What is dropped is idle. -/
theorem exists_dropIdle (parts : List String) :
    ∃ idle, parts = dropIdle parts ++ idle ∧ ∀ part ∈ idle, isIdle part = true := by
  cases parts with
  | nil => exact ⟨[], rfl, by simp⟩
  | cons first rest =>
    refine ⟨rest.rtakeWhile isIdle, ?_, fun part hp => List.mem_rtakeWhile_imp hp⟩
    rw [dropIdle_cons, List.cons_append, List.rdropWhile_append_rtakeWhile]

/-- Nothing is dropped before a name. -/
theorem dropIdle_concat {name : String} (h : isIdle name = false) (front : List String) :
    dropIdle (front ++ [name]) = front ++ [name] := by
  cases front with
  | nil => rfl
  | cons first rest =>
    rw [List.cons_append, dropIdle_cons, List.rdropWhile_concat_neg _ _ _ (by simp [h])]

theorem dropIdle_append {base front : List String} (h : ∀ part ∈ front, isIdle part = false) :
    dropIdle (base ++ front) = if front = [] then dropIdle base else base ++ front := by
  rcases front.eq_nil_or_concat with rfl | ⟨init, last, rfl⟩
  · simp
  · rw [List.concat_eq_append] at h ⊢
    rw [if_neg (by simp), ← List.append_assoc,
      dropIdle_concat (h last (List.mem_append_right _ (List.mem_singleton_self _)))]

theorem dropIdle_dropIdle (parts : List String) : dropIdle (dropIdle parts) = dropIdle parts := by
  cases parts with
  | nil => rfl
  | cons first rest => rw [dropIdle_cons, dropIdle_cons, List.rdropWhile_idempotent]

theorem dropIdle_isPrefix (parts : List String) : dropIdle parts <+: parts := by
  cases parts with
  | nil => exact List.prefix_refl _
  | cons first rest =>
    rw [dropIdle_cons]
    exact (List.prefix_cons_inj first).mpr (List.rdropWhile_prefix _ _)

/-- A path that ends in a name is split before it. -/
theorem splitName_concat {path name : String} {front : List String}
    (h : segments path = front ++ [name]) (hawake : isIdle name = false) (hdown : name ≠ "..") :
    splitName path = some (dropIdle front, name) := by
  simp [splitName, h, dropIdle_concat hawake, hawake, hdown]

/-- What a path is split into. -/
theorem splitName_eq_some {path name : String} {directory : List String}
    (h : splitName path = some (directory, name)) : IsEntryName name ∧
      dropIdle directory = directory ∧ ∀ part ∈ directory, '/' ∉ part.toList := by
  have hwhole : ∀ part ∈ dropIdle (segments path), '/' ∉ part.toList := fun part hp =>
    whole_of_mem_segments ((dropIdle_isPrefix _).subset hp)
  rw [splitName] at h
  obtain ⟨last, hlast, h⟩ := Option.bind_eq_some_iff.mp h
  split at h
  · cases h
  · next hname =>
    cases h
    rw [Bool.or_eq_true, not_or, Bool.not_eq_true, decide_eq_true_eq] at hname
    exact ⟨⟨hname.1, hname.2, hwhole _ (List.mem_of_getLast? hlast)⟩, dropIdle_dropIdle _,
      fun part hp => hwhole part (List.mem_of_mem_dropLast ((dropIdle_isPrefix _).subset hp))⟩

/-- The result for a file goes into the directory of the file. -/
theorem splitName_outputPath {path name : String} {directory : List String}
    (h : splitName path = some (directory, name)) :
    splitName (outputPath path) = some (directory, outputName name) ∧
      segments (outputPath path) = directory ++ [outputName name] := by
  obtain ⟨hname, hdirectory, hwhole⟩ := splitName_eq_some h
  have houtput := hname.outputName
  have hsegments : segments (outputPath path) = directory ++ [outputName name] := by
    rw [outputPath, h]
    refine segments_intercalate (by simp) fun part hp => ?_
    rcases List.mem_append.mp hp with hp | hp
    · exact hwhole part hp
    · exact List.mem_singleton.mp hp ▸ houtput.whole
  refine ⟨?_, hsegments⟩
  rw [splitName_concat hsegments houtput.awake houtput.down, hdirectory]

end Hoist
