import Hoist.Arguments
import Mathlib.Data.List.Basic

namespace Hoist

/-- What arguments of a command are taken for. -/
inductive ArgumentPart
  | settingsFile (file : String)
  | tempPrefix (text : String)
  | flag (flag : Flag)
  | path (path : String)

namespace ArgumentPart

/-- The arguments that a part is written as. -/
def words : ArgumentPart → List String
  | settingsFile file => ["--config", file]
  | tempPrefix text => ["--prefix", text]
  | flag f => [f.spelling]
  | path p => [p]

/-- Whether the arguments of a part can be taken for it. -/
def IsProper : ArgumentPart → Prop
  | settingsFile file => isFlagLike file = false
  | tempPrefix text => isNameLike text = true
  | flag _ => True
  | path p => isFlagLike p = false

def settingsFile? : ArgumentPart → Option String
  | settingsFile file => some file
  | _ => none

def tempPrefix? : ArgumentPart → Option String
  | tempPrefix text => some text
  | _ => none

def flag? : ArgumentPart → Option Flag
  | flag f => some f
  | _ => none

def path? : ArgumentPart → Option String
  | path p => some p
  | _ => none

/-- Arguments are taken for parts that they can be taken for. -/
def Split (arguments : List String) (parts : List ArgumentPart) : Prop :=
  (∀ part ∈ parts, part.IsProper) ∧ arguments = parts.flatMap words

end ArgumentPart

open ArgumentPart

/-- The options that parts make. Of an option that comes twice the last one counts. -/
def Options.ofParts (parts : List ArgumentPart) : Options :=
  ⟨parts.filterMap path?, (parts.filterMap settingsFile?).getLast?,
    (parts.filterMap tempPrefix?).getLast?⟩

theorem isFlagLike_spelling (f : Flag) : isFlagLike f.spelling = true := by
  cases f <;> decide

theorem ofText?_spelling (f : Flag) : Flag.ofText? f.spelling = some f := by
  cases f <;> decide

theorem spelling_ne_configOption (f : Flag) : f.spelling ≠ "--config" := by
  cases f <;> decide

theorem spelling_ne_prefixOption (f : Flag) : f.spelling ≠ "--prefix" := by
  cases f <;> decide

theorem spelling_of_ofText? {word : String} {f : Flag} (h : Flag.ofText? word = some f) :
    word = f.spelling := by
  have hf := List.find?_some h
  exact (of_decide_eq_true hf).symm

/-- What is not written like a flag is none. -/
theorem ofText?_eq_none {word : String} (h : isFlagLike word = false) :
    Flag.ofText? word = none := by
  cases hf : Flag.ofText? word with
  | none => rfl
  | some f =>
    rw [spelling_of_ofText? hf, isFlagLike_spelling] at h
    cases h

theorem isFlagLike_config : isFlagLike "--config" = true := by decide

theorem isFlagLike_prefix : isFlagLike "--prefix" = true := by decide

/-- No name begins with a dash. -/
theorem isFlagLike_of_isNameLike {text : String} (h : isNameLike text = true) :
    isFlagLike text = false := by
  unfold isNameLike at h
  unfold isFlagLike
  cases htext : text.toList with
  | nil => rfl
  | cons c cs =>
    rw [htext] at h
    have hc : isNameStart c = true := (Bool.and_eq_true_iff.mp h).1
    have hdash : c ≠ '-' := by
      rintro rfl
      have hnone : isNameStart '-' = false := by decide +kernel
      rw [hnone] at hc
      cases hc
    simp [List.isPrefixOf, Ne.symm hdash]

/-- How an argument is taken that names no option. -/
theorem scanOptions_cons {word : String} {rest : List String} (hc : word ≠ "--config")
    (hp : word ≠ "--prefix") : scanOptions (word :: rest) =
      if (Flag.ofText? word).isSome then scanOptions rest
      else if isFlagLike word then throw (.unknownFlag word)
      else do
        let options ← scanOptions rest
        return { options with paths := word :: options.paths } := by
  rw [scanOptions]
  · exact hc
  · exact hp

theorem getLast?_cons_or (a : String) (as : List String) :
    (a :: as).getLast? = (as.getLast? <|> some a) := by
  rw [List.getLast?_cons]
  cases as.getLast? <;> rfl

/-- A settings file counts where none comes later. -/
theorem ofParts_settingsFile (file : String) (parts : List ArgumentPart) :
    Options.ofParts (.settingsFile file :: parts) =
      { Options.ofParts parts with
        settingsFile := (Options.ofParts parts).settingsFile <|> some file } := by
  have hlast := getLast?_cons_or file (parts.filterMap settingsFile?)
  exact congrArg (Options.mk (parts.filterMap path?) · (parts.filterMap tempPrefix?).getLast?) hlast

/-- What temporaries begin with counts where nothing comes later. -/
theorem ofParts_tempPrefix (text : String) (parts : List ArgumentPart) :
    Options.ofParts (.tempPrefix text :: parts) =
      { Options.ofParts parts with
        tempPrefix := (Options.ofParts parts).tempPrefix <|> some text } := by
  have hlast := getLast?_cons_or text (parts.filterMap tempPrefix?)
  exact congrArg (Options.mk (parts.filterMap path?) (parts.filterMap settingsFile?).getLast?) hlast

/-- What parts are written as is taken for the options that they make. -/
theorem scanOptions_words {parts : List ArgumentPart} (h : ∀ part ∈ parts, part.IsProper) :
    scanOptions (parts.flatMap words) = .ok (.ofParts parts) := by
  induction parts with
  | nil => rfl
  | cons part parts ih =>
    obtain ⟨hpart, hparts⟩ := List.forall_mem_cons.mp h
    have hrest := ih hparts
    rw [List.flatMap_cons]
    cases part with
    | settingsFile file =>
      have hfile : isFlagLike file = false := hpart
      rw [words, List.cons_append, List.cons_append, List.nil_append, scanOptions, hrest, hfile,
        ofParts_settingsFile]
      rfl
    | tempPrefix text =>
      have htext : isNameLike text = true := hpart
      rw [words, List.cons_append, List.cons_append, List.nil_append, scanOptions, hrest, htext,
        ofParts_tempPrefix]
      rfl
    | flag f =>
      rw [words, List.cons_append, List.nil_append,
        scanOptions_cons (spelling_ne_configOption f) (spelling_ne_prefixOption f),
        ofText?_spelling]
      exact hrest
    | path p =>
      have hp : isFlagLike p = false := hpart
      have hoption : ∀ word, isFlagLike word = true → p ≠ word := by
        rintro word hword rfl
        rw [hp] at hword
        cases hword
      rw [words, List.cons_append, List.nil_append,
        scanOptions_cons (hoption _ isFlagLike_config) (hoption _ isFlagLike_prefix),
        ofText?_eq_none hp, hp, hrest]
      rfl

theorem ok_of_bind {α β : Type} {x : Except ArgumentFault α} {f : α → Except ArgumentFault β}
    {b : β} (h : x >>= f = .ok b) : ∃ a, x = .ok a ∧ f a = .ok b := by
  cases x with
  | error => cases h
  | ok a => exact ⟨a, rfl, h⟩

/-- Arguments that are taken for options are written from parts. -/
theorem exists_parts {arguments : List String} {options : Options}
    (h : scanOptions arguments = .ok options) :
    ∃ parts : List ArgumentPart, (∀ part ∈ parts, part.IsProper) ∧
      arguments = parts.flatMap words := by
  have hcons : ∀ (part : ArgumentPart) {rest : List String}, part.IsProper →
      (∃ parts : List ArgumentPart, (∀ part ∈ parts, part.IsProper) ∧ rest = parts.flatMap words) →
        ∃ parts : List ArgumentPart, (∀ part ∈ parts, part.IsProper) ∧
          part.words ++ rest = parts.flatMap words := by
    rintro part rest hpart ⟨parts, hparts, rfl⟩
    exact ⟨part :: parts, List.forall_mem_cons.mpr ⟨hpart, hparts⟩, List.flatMap_cons.symm⟩
  fun_induction scanOptions arguments generalizing options
  case case1 => exact ⟨[], by simp, rfl⟩
  case case2 | case3 | case5 | case6 | case9 => cases h
  case case4 file rest _ hfile ih =>
    obtain ⟨_, hrest, -⟩ := ok_of_bind h
    exact hcons (.settingsFile file) (by simpa [IsProper] using hfile) (ih hrest)
  case case7 text rest _ htext ih =>
    obtain ⟨_, hrest, -⟩ := ok_of_bind h
    exact hcons (.tempPrefix text) (by simpa [IsProper] using htext) (ih hrest)
  case case8 argument rest _ _ hflag ih =>
    obtain ⟨f, hf⟩ := Option.isSome_iff_exists.mp hflag
    rw [spelling_of_ofText? hf]
    exact hcons (.flag f) trivial (ih h)
  case case10 argument rest _ _ _ hpath ih =>
    obtain ⟨_, hrest, -⟩ := ok_of_bind h
    exact hcons (.path argument) (by simpa [IsProper] using hpath) (ih hrest)

theorem spelling_injective {f g : Flag} (h : f.spelling = g.spelling) : f = g := by
  have hf := ofText?_spelling f
  rw [h, ofText?_spelling] at hf
  exact (Option.some.inj hf).symm

/-- Two parts that arguments begin with are the same. -/
theorem part_unique {part other : ArgumentPart} {rest rest' : List String} (hpart : part.IsProper)
    (hother : other.IsProper) (h : part.words ++ rest = other.words ++ rest') :
    part = other ∧ rest = rest' := by
  have hconfig := isFlagLike_config
  have hprefix := isFlagLike_prefix
  cases part with
  | settingsFile file =>
    cases other <;> grind [words, IsProper, spelling_ne_configOption]
  | tempPrefix text =>
    cases other <;> grind [words, IsProper, spelling_ne_prefixOption]
  | flag f =>
    cases other <;> grind [words, IsProper, spelling_ne_configOption, spelling_ne_prefixOption,
      spelling_injective, isFlagLike_spelling]
  | path p =>
    cases other <;> grind [words, IsProper, isFlagLike_spelling]

/-- Arguments are written from no other parts. -/
theorem parts_unique {parts others : List ArgumentPart} (hparts : ∀ part ∈ parts, part.IsProper)
    (hothers : ∀ part ∈ others, part.IsProper) (h : parts.flatMap words = others.flatMap words) :
    parts = others := by
  induction parts generalizing others with
  | nil =>
    cases others with
    | nil => rfl
    | cons other others => cases other <;> cases h
  | cons part parts ih =>
    obtain ⟨hpart, hparts⟩ := List.forall_mem_cons.mp hparts
    cases others with
    | nil => cases part <;> cases h
    | cons other others =>
      obtain ⟨hother, hrest⟩ := List.forall_mem_cons.mp hothers
      rw [List.flatMap_cons, List.flatMap_cons] at h
      obtain ⟨hsame, hmore⟩ := part_unique hpart hother h
      rw [hsame, ih hparts hrest hmore]

/-- Where a part is cut, its first argument needs what comes behind it. -/
theorem whole_of_words {part : ArgumentPart} {left right : List String}
    (h : part.words = left ++ right)
    (hleft : ∀ word ∈ left.getLast?, word ∉ ["--config", "--prefix"]) :
    left = [] ∨ right = [] := by
  cases left with
  | nil => exact .inl rfl
  | cons word left =>
    cases left with
    | nil => cases part <;> simp_all [words]
    | cons word' left => cases part <;> simp_all [words]

/-- Arguments can be cut between their parts wherever no option is cut from its value. -/
theorem exists_cut {parts : List ArgumentPart} {left right : List String}
    (h : parts.flatMap words = left ++ right)
    (hleft : ∀ word ∈ left.getLast?, word ∉ ["--config", "--prefix"]) :
    ∃ before behind, parts = before ++ behind ∧ left = before.flatMap words ∧
      right = behind.flatMap words := by
  induction parts generalizing left with
  | nil =>
    obtain ⟨rfl, rfl⟩ := List.append_eq_nil_iff.mp h.symm
    exact ⟨[], [], rfl, rfl, rfl⟩
  | cons part parts ih =>
    rw [List.flatMap_cons] at h
    rcases List.append_eq_append_iff.mp h with ⟨more, rfl, hmore⟩ | ⟨more, hmore, rfl⟩
    · have hlast : ∀ word ∈ more.getLast?, word ∉ ["--config", "--prefix"] := fun word hword =>
        hleft word (by rw [List.getLast?_append, hword]; rfl)
      obtain ⟨before, behind, rfl, rfl, hbehind⟩ := ih hmore hlast
      exact ⟨part :: before, behind, rfl, rfl, hbehind⟩
    · rcases whole_of_words hmore hleft with rfl | rfl
      · exact ⟨[], part :: parts, rfl, rfl, by rw [List.flatMap_cons, hmore, List.nil_append]⟩
      · exact ⟨[part], parts, rfl, by simp [hmore], rfl⟩

/-- A flag is no part of anything but itself. -/
theorem eq_flag_of_mem_words {part : ArgumentPart} {f : Flag} (hpart : part.IsProper)
    (h : f.spelling ∈ part.words) : part = .flag f := by
  cases part with
  | settingsFile file => grind [words, IsProper, spelling_ne_configOption, isFlagLike_spelling]
  | tempPrefix text =>
    grind [words, IsProper, spelling_ne_prefixOption, isFlagLike_spelling, isFlagLike_of_isNameLike]
  | flag g => rw [spelling_injective (List.mem_singleton.mp h)]
  | path p => grind [words, IsProper, isFlagLike_spelling]

/-- An argument that is a flag is taken for that flag. -/
theorem exists_flag {parts : List ArgumentPart} {left right : List String} {f : Flag}
    (hproper : ∀ part ∈ parts, part.IsProper)
    (h : parts.flatMap words = left ++ f.spelling :: right) :
    ∃ before behind, parts = before ++ .flag f :: behind ∧ left = before.flatMap words ∧
      right = behind.flatMap words := by
  induction parts generalizing left with
  | nil => cases left <;> cases h
  | cons part parts ih =>
    obtain ⟨hpart, hparts⟩ := List.forall_mem_cons.mp hproper
    rw [List.flatMap_cons] at h
    rcases List.append_eq_append_iff.mp h with ⟨more, rfl, hmore⟩ | ⟨more, hmore, hrest⟩
    · obtain ⟨before, behind, rfl, rfl, hbehind⟩ := ih hparts hmore
      exact ⟨part :: before, behind, rfl, rfl, hbehind⟩
    · cases more with
      | nil =>
        obtain ⟨before, behind, rfl, hnone, hbehind⟩ := @ih [] hparts hrest.symm
        refine ⟨part :: before, behind, rfl, ?_, hbehind⟩
        rw [List.flatMap_cons, ← hnone, hmore, List.append_nil, List.append_nil]
      | cons word more =>
        obtain ⟨rfl, rfl⟩ := List.cons.inj hrest
        obtain rfl := eq_flag_of_mem_words hpart (f := f) (by rw [hmore]; simp)
        cases left with
        | nil =>
          obtain rfl : [] = more := (List.cons.inj hmore).2
          exact ⟨[], parts, rfl, rfl, rfl⟩
        | cons word left => simp [words] at hmore

/-- The flags that are found wherever they stand are those that arguments are taken for. -/
theorem flagsOf_words {parts : List ArgumentPart} (h : ∀ part ∈ parts, part.IsProper) :
    flagsOf (parts.flatMap words) = parts.filterMap flag? := by
  induction parts with
  | nil => rfl
  | cons part parts ih =>
    obtain ⟨hpart, hparts⟩ := List.forall_mem_cons.mp h
    have hrest : (parts.flatMap words).filterMap Flag.ofText? = parts.filterMap flag? := ih hparts
    rw [List.flatMap_cons, flagsOf, List.filterMap_append, hrest]
    cases part with
    | settingsFile file =>
      have hoption : Flag.ofText? "--config" = none := by decide
      rw [words, List.filterMap_cons_none hoption, List.filterMap_cons_none (ofText?_eq_none hpart),
        List.filterMap_nil, List.nil_append, List.filterMap_cons_none rfl]
    | tempPrefix text =>
      have hoption : Flag.ofText? "--prefix" = none := by decide
      have htext := ofText?_eq_none (isFlagLike_of_isNameLike hpart)
      rw [words, List.filterMap_cons_none hoption, List.filterMap_cons_none htext,
        List.filterMap_nil, List.nil_append, List.filterMap_cons_none rfl]
    | flag f =>
      rw [words, List.filterMap_cons_some (ofText?_spelling f), List.filterMap_nil,
        List.filterMap_cons_some (f := flag?) rfl, List.cons_append, List.nil_append]
    | path p =>
      rw [words, List.filterMap_cons_none (ofText?_eq_none hpart), List.filterMap_nil,
        List.nil_append, List.filterMap_cons_none rfl]

theorem readOptions_words {parts : List ArgumentPart} (h : ∀ part ∈ parts, part.IsProper)
    (hpaths : parts.filterMap path? ≠ []) :
    readOptions (parts.flatMap words) = .ok (.ofParts parts) := by
  have hsome : (Options.ofParts parts).paths.isEmpty = false := by
    simpa [Options.ofParts] using hpaths
  rw [readOptions, scanOptions_words h]
  simp [bind, Except.bind, hsome, pure, Except.pure]

/-- Arguments that make a command are taken for parts, one of them a path. -/
theorem exists_split {arguments : List String} {options : Options}
    (h : readOptions arguments = .ok options) :
    ∃ parts, Split arguments parts ∧ options = .ofParts parts ∧ parts.filterMap path? ≠ [] := by
  obtain ⟨scanned, hscan, hrest⟩ := ok_of_bind h
  obtain ⟨parts, hproper, rfl⟩ := exists_parts hscan
  rw [scanOptions_words hproper] at hscan
  cases hscan
  by_cases hpaths : (Options.ofParts parts).paths.isEmpty = true
  · rw [if_pos hpaths] at hrest
    cases hrest
  · rw [if_neg hpaths] at hrest
    refine ⟨parts, ⟨hproper, rfl⟩, (Except.ok.inj hrest).symm, fun hnone => hpaths ?_⟩
    simp [Options.ofParts, hnone]

/-- A flag can be put elsewhere among arguments, but not between an option and its value. -/
theorem split_moved {parts : List ArgumentPart} {f : Flag} {left right left' right' : List String}
    (h : Split (left ++ f.spelling :: right) parts) (hmoved : left ++ right = left' ++ right')
    (hleft : ∀ word ∈ left'.getLast?, word ∉ ["--config", "--prefix"]) :
    ∃ others, Split (left' ++ f.spelling :: right') others ∧
      Options.ofParts others = Options.ofParts parts ∧
      (others.filterMap flag?).Perm (parts.filterMap flag?) := by
  obtain ⟨hproper, hwords⟩ := h
  obtain ⟨before, behind, rfl, rfl, rfl⟩ := exists_flag hproper hwords.symm
  rw [← List.flatMap_append] at hmoved
  obtain ⟨before', behind', hsplit, rfl, rfl⟩ := exists_cut hmoved hleft
  have hperm : (before' ++ .flag f :: behind').Perm (before ++ .flag f :: behind) := by
    refine List.perm_middle.trans (.trans ?_ List.perm_middle.symm)
    rw [hsplit]
  have hskip : ∀ {g : ArgumentPart → Option String}, g (.flag f) = none →
      (before' ++ .flag f :: behind').filterMap g = (before ++ .flag f :: behind).filterMap g := by
    intro g hg
    have hboth := congrArg (List.filterMap g) hsplit
    rw [List.filterMap_append, List.filterMap_append] at hboth
    rw [List.filterMap_append, List.filterMap_append, List.filterMap_cons_none hg,
      List.filterMap_cons_none hg, hboth]
  refine ⟨before' ++ .flag f :: behind', ⟨fun part hpart => ?_, ?_⟩, ?_, hperm.filterMap _⟩
  · exact hproper part (hperm.mem_iff.mp hpart)
  · simp [words]
  · rw [Options.ofParts, hskip rfl, hskip rfl, hskip rfl, Options.ofParts]

theorem readCommand_decompose (rest : List String) :
    readCommand ("decompose" :: rest) = (readOptions rest).map Command.decompose := by
  rw [readCommand]
  cases readOptions rest <;> rfl

theorem readCommand_classify (rest : List String) :
    readCommand ("classify" :: rest) = (readOptions rest).map Command.classify := by
  rw [readCommand]
  cases readOptions rest <;> rfl

/-- What a command is that works on something, and on what. -/
theorem readCommand_cases {command : String} (h : command ∈ ["decompose", "classify"]) :
    Flag.ofText? command = none ∧ ∃ make ∈ [Command.decompose, Command.classify], ∀ rest,
      readCommand (command :: rest) = (readOptions rest).map make := by
  simp only [List.mem_cons, List.not_mem_nil, or_false] at h
  rcases h with rfl | rfl
  · exact ⟨by decide, _, by simp, readCommand_decompose⟩
  · exact ⟨by decide, _, by simp, readCommand_classify⟩

/-- The flags of a command, which are looked for in all of its arguments, are those arguments that are
taken for flags where its options are read: none is the value of an option or a path. The arguments
can be taken for parts in one way only. The paths are those that remain, in order, at least one, and
of each option the last one counts. Nothing of this depends on where a flag stands. -/
theorem flags_agree_with_options {command : String} {arguments : List String} {c : Command}
    (hcommand : command ∈ ["decompose", "classify"])
    (h : readCommand (command :: arguments) = .ok c) :
    ∃ parts : List ArgumentPart, Split arguments parts ∧
      (∀ others, Split arguments others → others = parts) ∧
      (c = .decompose (.ofParts parts) ∨ c = .classify (.ofParts parts)) ∧
      (Options.ofParts parts).paths ≠ [] ∧
      flagsOf (command :: arguments) = parts.filterMap flag? ∧
      (∀ left argument right f, arguments = left ++ argument :: right →
        (Flag.ofText? argument = some f ↔ ∃ before behind, parts = before ++ .flag f :: behind ∧
          left = before.flatMap words)) ∧
      ∀ (f : Flag) left right left' right', arguments = left ++ f.spelling :: right →
        left ++ right = left' ++ right' →
        (∀ argument ∈ left'.getLast?, argument ∉ ["--config", "--prefix"]) →
          readCommand (command :: (left' ++ f.spelling :: right')) = .ok c ∧
          (flagsOf (command :: (left' ++ f.spelling :: right'))).Perm
            (flagsOf (command :: arguments)) := by
  obtain ⟨hnone, make, hmake, hread⟩ := readCommand_cases hcommand
  have hflags : ∀ {more : List String} {others : List ArgumentPart}, Split more others →
      flagsOf (command :: more) = others.filterMap flag? := by
    rintro more others ⟨hproper, rfl⟩
    rw [flagsOf, List.filterMap_cons_none hnone]
    exact flagsOf_words hproper
  obtain ⟨options, hoptions, rfl⟩ : ∃ options, readOptions arguments = .ok options ∧
      make options = c := by
    rw [hread] at h
    cases hoptions : readOptions arguments with
    | error fault =>
      rw [hoptions] at h
      cases h
    | ok options =>
      rw [hoptions] at h
      exact ⟨options, rfl, Except.ok.inj h⟩
  obtain ⟨parts, hsplit, rfl, hpaths⟩ := exists_split hoptions
  refine ⟨parts, hsplit, fun others hothers => ?_, ?_, hpaths, hflags hsplit, ?_, ?_⟩
  · exact parts_unique hothers.1 hsplit.1 (hothers.2.symm.trans hsplit.2)
  · simp only [List.mem_cons, List.not_mem_nil, or_false] at hmake
    rcases hmake with rfl | rfl
    · exact .inl rfl
    · exact .inr rfl
  · intro left argument right f harguments
    constructor
    · intro hf
      rw [spelling_of_ofText? hf] at harguments
      obtain ⟨before, behind, hparts, hleft, -⟩ :=
        exists_flag hsplit.1 (hsplit.2.symm.trans harguments)
      exact ⟨before, behind, hparts, hleft⟩
    · rintro ⟨before, behind, rfl, rfl⟩
      have hsame := hsplit.2.symm.trans harguments
      rw [List.flatMap_append, List.flatMap_cons] at hsame
      obtain ⟨rfl, -⟩ := List.cons.inj (List.append_cancel_left hsame)
      exact ofText?_spelling f
  · intro f left right left' right' harguments hmoved hleft
    rw [harguments] at hsplit
    obtain ⟨others, hothers, hsame, hperm⟩ := split_moved hsplit hmoved hleft
    refine ⟨?_, ?_⟩
    · have hpaths' : others.filterMap path? ≠ [] := by
        have hpath : (Options.ofParts others).paths = (Options.ofParts parts).paths := by rw [hsame]
        exact fun hnone => hpaths (hpath.symm.trans hnone)
      rw [hread, hothers.2, readOptions_words hothers.1 hpaths', hsame]
      rfl
    · rw [harguments, hflags hothers, hflags hsplit]
      exact hperm

/-- A flag stands in front of the path and another one behind the options. -/
theorem flags_agree_with_options_of_two :
    readCommand ["decompose", "--check", "a.js", "--config", "b.toml", "--relocate"] =
      .ok (.decompose ⟨["a.js"], some "b.toml", none⟩) ∧
    readCommand ["decompose", "a.js", "--config", "b.toml", "--check", "--relocate"] =
      .ok (.decompose ⟨["a.js"], some "b.toml", none⟩) ∧
    (flagsOf ["decompose", "a.js", "--config", "b.toml", "--check", "--relocate"]).Perm
      [.check, .relocate] := by
  have hread : readCommand ["decompose", "--check", "a.js", "--config", "b.toml", "--relocate"] =
      .ok (.decompose ⟨["a.js"], some "b.toml", none⟩) := by decide +kernel
  obtain ⟨parts, -, -, -, -, -, -, hmoved⟩ := flags_agree_with_options (by decide) hread
  obtain ⟨hsame, hflags⟩ := hmoved .check [] ["a.js", "--config", "b.toml", "--relocate"]
    ["a.js", "--config", "b.toml"] ["--relocate"] rfl rfl (by decide)
  exact ⟨hread, hsame, hflags⟩

end Hoist
