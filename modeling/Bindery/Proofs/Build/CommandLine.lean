import Bindery.Proofs.Build.Honest

/-!
# Reading command lines

A command line is read in the way of the compiler. Some options have the next argument for their
value, some have it in the same argument, and some have none; all that does not begin like an option
is a file. What was put together is read back part by part.
-/
namespace Bindery

theorem Build.mem_includeDirs {auxiliary : List Path} {dir : String} :
    dir ∈ includeDirs auxiliary ↔ ∃ src ∈ auxiliary, src.parent.text = dir := by
  rw [includeDirs, List.mem_mergeSort, List.mem_eraseDups, List.mem_map]

namespace CommandLine
open Build

/-- The options that a command knows. -/
structure Options where
  /-- Those that have the next argument for their value. -/
  apart : List String
  /-- Those with their value in the same argument. -/
  joined : List String
  /-- Those without a value. -/
  flags : List String

inductive Arg
  | option (name value : String)
  | flag (name : String)
  | file (text : String)
  deriving DecidableEq

namespace Arg

def value? (name : String) : Arg → Option String
  | option n value => if n = name then some value else none
  | _ => none

def file? : Arg → Option String
  | file text => some text
  | _ => none

end Arg

/-- An argument that does not need the next one. What begins like an option has to be one. -/
def single? (o : Options) (arg : String) : Option Arg :=
  if arg ∈ o.flags then some (.flag arg)
  else
    match o.joined.findSome? fun name => (arg.toList.dropPrefix? name.toList).map (name, ·) with
    | some (name, value) => some (.option name (String.ofList value))
    | none => if arg.toList.head? ∈ [some '-', some '@'] then none else some (.file arg)

/-- The arguments of a command line, if all of its options are known. -/
def read (o : Options) : List String → Option (List Arg)
  | [] => some []
  | arg :: args =>
    if arg ∈ o.apart then
      match args with
      | [] => none
      | value :: args => (read o args).map (.option arg value :: ·)
    else do
      let a ← single? o arg
      (read o args).map (a :: ·)

def values (name : String) (as : List Arg) : List String := as.filterMap (Arg.value? name)

def files (as : List Arg) : List String := as.filterMap Arg.file?

section Values
variable {name n value text : String} {as as' : List Arg} {α : Type} {l : List α} {f : α → String}

@[simp] theorem values_nil : values name [] = [] := rfl

@[simp] theorem values_append : values name (as ++ as') = values name as ++ values name as' :=
  List.filterMap_append

@[simp] theorem values_option : values name (.option n value :: as) =
    if n = name then value :: values name as else values name as := by
  rw [values, List.filterMap_cons, Arg.value?]
  split_ifs <;> rfl

@[simp] theorem values_flag : values name (.flag n :: as) = values name as := rfl

@[simp] theorem values_file : values name (.file text :: as) = values name as := rfl

@[simp] theorem values_map_option {l : List String} :
    values name (l.map (.option n)) = if n = name then l else [] := by
  induction l with
  | nil => simp
  | cons x l ih =>
    rw [List.map_cons, values_option, ih]
    split_ifs <;> rfl

@[simp] theorem values_map_file : values name (l.map fun x => .file (f x)) = [] := by
  induction l with
  | nil => rfl
  | cons x l ih => exact ih

@[simp] theorem files_nil : files [] = [] := rfl

@[simp] theorem files_append : files (as ++ as') = files as ++ files as' := List.filterMap_append

@[simp] theorem files_option : files (.option n value :: as) = files as := rfl

@[simp] theorem files_flag : files (.flag n :: as) = files as := rfl

@[simp] theorem files_file : files (.file text :: as) = text :: files as := rfl

@[simp] theorem files_map_option {l : List String} : files (l.map (.option n)) = [] := by
  induction l with
  | nil => rfl
  | cons x l ih => exact ih

@[simp] theorem files_map_file : files (l.map fun x => .file (f x)) = l.map f := by
  induction l with
  | nil => rfl
  | cons x l ih => exact congrArg (f x :: ·) ih

end Values

/-- The options of the command that makes a library. -/
def libraryOptions : Options where
  apart := ["-target", "-O", "-I"]
  joined := ["-mcpu=", "-femit-bin=", "-I"]
  flags := ["-static", "-fPIC", "-lc"]

/-- The options of the command that runs a build script. -/
def scriptOptions : Options where
  apart := ["--build-file", "-p"]
  joined := ["-Dtarget=", "-Doptimize="]
  flags := []

/-- Some arguments are read as the given ones, whatever follows. -/
def Reads (o : Options) (args : List String) (as : List Arg) : Prop :=
  ∀ rest, read o (args ++ rest) = (read o rest).map (as ++ ·)

variable {o : Options} {args args' : List String} {as as' : List Arg} {text : String}

theorem Reads.read_eq (h : Reads o args as) : read o args = some as := by
  have hread := h []
  rw [List.append_nil] at hread
  rw [hread, read, Option.map_some, List.append_nil]

theorem Reads.append (h : Reads o args as) (h' : Reads o args' as') :
    Reads o (args ++ args') (as ++ as') := by
  intro rest
  rw [List.append_assoc, h, h', Option.map_map]
  refine congrArg (Option.map · _) (funext fun bs => ?_)
  exact (List.append_assoc as as' bs).symm

theorem reads_nil : Reads o [] [] := by
  intro rest
  rw [List.nil_append]
  exact Option.map_id'.symm

theorem reads_apart {name : String} (h : name ∈ o.apart) (value : String) :
    Reads o [name, value] [.option name value] := by
  intro rest
  simp only [List.cons_append, List.nil_append, read, if_pos h]

theorem reads_single {arg : String} {a : Arg} (h : arg ∉ o.apart) (ha : single? o arg = some a) :
    Reads o [arg] [a] := by
  intro rest
  rw [List.singleton_append, read.eq_def]
  dsimp only
  rw [if_neg h, ha, Option.bind_eq_bind, Option.bind_some]
  rfl

theorem reads_map {α : Type} {l : List α} {f : α → String} {g : α → Arg}
    (h : ∀ x ∈ l, Reads o [f x] [g x]) : Reads o (l.map f) (l.map g) := by
  induction l with
  | nil => exact reads_nil
  | cons x l ih =>
    obtain ⟨hx, hl⟩ := List.forall_mem_cons.1 h
    exact hx.append (ih hl)

theorem not_mem_of_toList {l : List String} {cs : List Char} (h : text.toList = cs)
    (hcs : cs ∉ l.map String.toList) : text ∉ l := fun hmem =>
  hcs (h ▸ List.mem_map_of_mem hmem)

theorem toList_of_isAbsolute (h : (⟨text⟩ : Path).isAbsolute = true) :
    ∃ cs, text.toList = '/' :: cs :=
  List.head?_eq_some_iff.1 (of_decide_eq_true h)

theorem reads_file (h : (⟨text⟩ : Path).isAbsolute = true) :
    Reads libraryOptions [text] [.file text] := by
  obtain ⟨cs, hcs⟩ := toList_of_isAbsolute h
  have hapart : text ∉ libraryOptions.apart := not_mem_of_toList hcs (by simp [libraryOptions])
  have hflag : text ∉ libraryOptions.flags := not_mem_of_toList hcs (by simp [libraryOptions])
  refine reads_single hapart ?_
  rw [single?, if_neg hflag]
  simp [libraryOptions, hcs, List.dropPrefix?]

/-- An option with its value in the same argument, which is no other option. -/
theorem reads_joined {name value : String} {cs : List Char} (harg : (name ++ value).toList = cs)
    (hcs : cs ∉ (o.apart ++ o.flags).map String.toList)
    (hfind : o.joined.findSome? (fun n => (cs.dropPrefix? n.toList).map (n, ·)) =
      some (name, value.toList)) :
    Reads o [name ++ value] [.option name value] := by
  have hother := not_mem_of_toList harg hcs
  rw [List.mem_append, not_or] at hother
  refine reads_single hother.1 ?_
  rw [single?, if_neg hother.2, harg, hfind]
  dsimp only
  rw [String.ofList_toList]

/-- A directory for headers in one argument with its option. -/
theorem reads_include (h : (⟨text⟩ : Path).isAbsolute = true) :
    Reads libraryOptions ["-I" ++ text] [.option "-I" text] := by
  obtain ⟨cs, hcs⟩ := toList_of_isAbsolute h
  have harg : ("-I" ++ text).toList = '-' :: 'I' :: '/' :: cs := by
    rw [String.toList_append, hcs]
    rfl
  refine reads_joined harg (by simp [libraryOptions]) ?_
  simp [libraryOptions, List.dropPrefix?, hcs]

theorem reads_emit (text : String) :
    Reads libraryOptions ["-femit-bin=" ++ text] [.option "-femit-bin=" text] := by
  have harg : ("-femit-bin=" ++ text).toList =
      '-' :: 'f' :: 'e' :: ("mit-bin=".toList ++ text.toList) := String.toList_append
  refine reads_joined harg (by simp [libraryOptions]) ?_
  simp [libraryOptions, List.dropPrefix?]

theorem reads_target (target : String) :
    Reads scriptOptions ["-Dtarget=" ++ target] [.option "-Dtarget=" target] := by
  have harg : ("-Dtarget=" ++ target).toList = '-' :: 'D' :: ("target=".toList ++ target.toList) :=
    String.toList_append
  refine reads_joined harg (by simp [scriptOptions]) ?_
  simp [scriptOptions, List.dropPrefix?]

theorem reads_optimize (optimization : String) :
    Reads scriptOptions ["-Doptimize=" ++ optimization] [.option "-Doptimize=" optimization] := by
  have harg : ("-Doptimize=" ++ optimization).toList =
      '-' :: 'D' :: ("optimize=".toList ++ optimization.toList) := String.toList_append
  refine reads_joined harg (by simp [scriptOptions]) ?_
  simp [scriptOptions, List.dropPrefix?]

/-- What follows the name of the library is read in the same way for every target. -/
def lastOptions (target optimization : String) : List Arg :=
  [Arg.option "-target" target, Arg.option "-mcpu=" "baseline"] ++
    ((if Target.isHosted target then [Arg.flag "-fPIC", Arg.flag "-lc"] else []) ++
      [Arg.option "-O" optimization])

theorem reads_lastArgs (target optimization : String) :
    Reads libraryOptions (Build.lastArgs target optimization)
      (lastOptions target optimization) := by
  have htarget : Reads libraryOptions ["-target", target] [.option "-target" target] :=
    reads_apart (by decide) target
  have hcpu : Reads libraryOptions ["-mcpu=baseline"] [.option "-mcpu=" "baseline"] :=
    reads_single (by decide) (by decide +kernel)
  have hpic : Reads libraryOptions ["-fPIC", "-lc"] [.flag "-fPIC", .flag "-lc"] :=
    (reads_single (by decide) (by decide)).append (reads_single (by decide) (by decide))
  have hoptimization : Reads libraryOptions ["-O", optimization] [.option "-O" optimization] :=
    reads_apart (by decide) optimization
  rw [Build.lastArgs, lastOptions]
  refine (htarget.append hcpu).append (Reads.append ?_ hoptimization)
  split_ifs
  · exact hpic
  · exact reads_nil

@[simp] theorem values_lastOptions (name target optimization : String) :
    values name (lastOptions target optimization) = values name
      [.option "-target" target, .option "-mcpu=" "baseline", .option "-O" optimization] := by
  rw [lastOptions]
  split_ifs <;> rfl

@[simp] theorem files_lastOptions (target optimization : String) :
    files (lastOptions target optimization) = [] := by
  rw [lastOptions]
  split_ifs <;> rfl

/-- The sources that are compiled along, after the directories for their headers. -/
theorem reads_auxiliaryArgs {auxiliary : List Path}
    (h : ∀ src ∈ auxiliary, src.isAbsolute = true) :
    Reads libraryOptions (Build.auxiliaryArgs auxiliary)
      ((Build.includeDirs auxiliary).map (.option "-I") ++ auxiliary.map (.file ·.text)) := by
  rw [Build.auxiliaryArgs]
  refine Reads.append (reads_map fun dir hdir => ?_) (reads_map fun src hsrc => ?_)
  · obtain ⟨src, hsrc, rfl⟩ := mem_includeDirs.1 hdir
    exact reads_include (Path.isAbsolute_parent (h src hsrc))
  · exact reads_file (h src hsrc)

end CommandLine

end Bindery
