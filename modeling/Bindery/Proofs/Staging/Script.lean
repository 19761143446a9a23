import Bindery.Proofs.Path.Parts
import Bindery.Staging.Basic

/-!
# Reading build scripts

A build script is read line by line: settings, with their values to the right of an equals sign, and
the steps that compile a C source with a directory for headers. Of a script that is rendered one
reads the same settings always, and one step for each auxiliary source, in their order, as long as
no path has a character in it that a string cannot hold as it is.
-/
namespace Bindery

namespace Zig

/-- What a character after a backslash stands for. -/
def escaped? (c : Char) : Option Char :=
  if c = 'n' then some '\n'
  else if c = 'r' then some '\r'
  else if c = 't' then some '\t'
  else if c = '\\' ∨ c = '\'' ∨ c = '"' then some c
  else none

/-- A character that stands for itself in a string: none that controls a terminal. Bytes outside of
ASCII belong to characters in UTF-8. -/
def isPlain (c : Char) : Bool := ' ' ≤ c && c ≠ '\x7f'

/-- The value of a string after its opening quote, and what follows the closing one. -/
def string? : List Char → Option (List Char × List Char)
  | [] => none
  | '"' :: cs => some ([], cs)
  | '\\' :: [] => none
  | '\\' :: c :: cs => do
    let c ← escaped? c
    let (value, rest) ← string? cs
    return (c :: value, rest)
  | c :: cs => do
    let (value, rest) ← string? cs
    if isPlain c then return (c :: value, rest) else none

/-- The value of a string in quotes, and what follows it. -/
def quoted? : List Char → Option (List Char × List Char)
  | '"' :: cs => string? cs
  | _ => none

/-- A text that can be written between quotes. -/
def IsQuotable (s : String) : Prop := ∀ c ∈ s.toList, isPlain c = true

theorem string?_escape {cs : List Char} (h : ∀ c ∈ cs, isPlain c = true) (rest : List Char) :
    string? (BuildScript.escape cs ++ '"' :: rest) = some (cs, rest) := by
  induction cs with
  | nil => rfl
  | cons c cs ih =>
    obtain ⟨hc, hcs⟩ := List.forall_mem_cons.1 h
    rw [BuildScript.escape]
    split_ifs with hescape
    · rcases hescape with rfl | rfl
      · simp [string?, escaped?, ih hcs]
      · simp [string?, escaped?, ih hcs]
    · obtain ⟨hslash, hquote⟩ := not_or.1 hescape
      simp [string?, hslash, hc, ih hcs]

/-- What is quoted is read back. -/
theorem quoted?_quote {s : String} (h : IsQuotable s) (rest : List Char) :
    quoted? ((BuildScript.quote s).toList ++ rest) = some (s.toList, rest) := by
  simp [BuildScript.quote, quoted?, string?_escape h]

theorem mem_escape {c : Char} {cs : List Char} (h : c ∈ BuildScript.escape cs) :
    c = '\\' ∨ c ∈ cs := by
  induction cs with
  | nil => exact absurd h List.not_mem_nil
  | cons d cs ih =>
    rw [BuildScript.escape] at h
    split_ifs at h
    · rcases List.mem_cons.1 h with rfl | h
      · exact .inl rfl
      · rcases List.mem_cons.1 h with rfl | h
        · exact .inr List.mem_cons_self
        · exact (ih h).imp_right (List.mem_cons_of_mem _)
    · rcases List.mem_cons.1 h with rfl | h
      · exact .inr List.mem_cons_self
      · exact (ih h).imp_right (List.mem_cons_of_mem _)

/-- What is quoted stays on its line. -/
theorem not_mem_quote {s : String} (h : IsQuotable s) : '\n' ∉ (BuildScript.quote s).toList := by
  intro hmem
  simp only [BuildScript.quote, String.toList_append, String.toList_ofList, List.mem_append] at hmem
  rcases hmem with (hmem | hmem) | hmem
  · exact absurd hmem (by decide)
  · rcases mem_escape hmem with heq | hmem
    · cases heq
    · exact absurd (h _ hmem) (by decide)
  · exact absurd hmem (by decide)

end Zig

namespace BuildScript
open Zig

/-! ### Lines -/

/-- The lines of a script without the blanks that indent them. -/
def lines (text : String) : List (List Char) :=
  (Text.splitOn '\n' text.toList).map (·.dropWhile (· = ' '))

/-- The value that a line sets a name to. -/
def value? (name : String) (line : List Char) : Option String :=
  (line.dropPrefix? (name ++ " = ").toList).map fun cs => String.ofList cs.dropLast

def values (name : String) (script : List (List Char)) : List String :=
  script.filterMap (value? name)

/-! The fixed parts of the step for a C source. -/

def stepStart : String := "lib.addCSourceFile(.\x7b .file = .\x7b .cwd_relative = "

def stepFlags : String := " \x7d, .flags = &.\x7b \"-fPIC\", "

def stepEnd : String := " \x7d \x7d);"

/-- The C source that a line has compiled, with its directory for headers. -/
def source? (line : List Char) : Option (Path × Path) := do
  let cs ← line.dropPrefix? stepStart.toList
  let (file, cs) ← quoted? cs
  let cs ← cs.dropPrefix? stepFlags.toList
  let (flag, cs) ← quoted? cs
  let dir ← flag.dropPrefix? "-I".toList
  if cs = stepEnd.toList then return (⟨String.ofList file⟩, ⟨String.ofList dir⟩) else none

/-- What a script has to say of the library that it builds. -/
structure Reading where
  /-- The processors that the library is compiled for. -/
  processors : List String
  /-- Whether the target that the build is asked for becomes that of the library. -/
  takesTarget : Bool
  /-- Whether the optimisation that the build is asked for becomes that of the library. -/
  takesOptimization : Bool
  /-- The names of the libraries that are installed. -/
  installed : List String
  /-- The C sources that are compiled, each with its directory for headers. -/
  sources : List (Path × Path)
  deriving DecidableEq

/-- What the lines of a script say. -/
def Reading.ofLines (script : List (List Char)) : Reading where
  processors := values "query.cpu_model" script
  takesTarget :=
    values "var query" script = ["b.standardTargetOptionsQueryOnly(.\x7b\x7d)"] ∧
      values "const target" script = ["b.resolveTargetQuery(query)"] ∧
      values ".target" script = ["target"]
  takesOptimization :=
    values "const optimize" script = ["b.standardOptimizeOption(.\x7b\x7d)"] ∧
      values ".optimize" script = ["optimize"]
  installed :=
    if script.contains "b.installArtifact(lib);".toList then
      (values ".name" script).filterMap fun v => (quoted? v.toList).map fun r => String.ofList r.1
    else []
  sources := script.filterMap source?

def read (text : String) : Reading := .ofLines (lines text)

/-! ### Rendered scripts -/

/-- All of a script that stands above the steps for its C sources. -/
def top : String :=
  "// Generated by zbgen. Do not edit.\n" ++
    "const std = @import(\"std\");\n\n" ++
    "pub fn build(b: *std.Build) void \x7b\n" ++
    "    var query = b.standardTargetOptionsQueryOnly(.\x7b\x7d);\n" ++
    "    query.cpu_model = .baseline;\n" ++
    "    const target = b.resolveTargetQuery(query);\n" ++
    "    const optimize = b.standardOptimizeOption(.\x7b\x7d);\n\n" ++
    "    const lib = b.addStaticLibrary(.\x7b\n" ++
    "        .name = \"zigbind_foreign\",\n" ++
    "        .root_source_file = b.path(\"" ++ Staging.entryName ++ "\"),\n" ++
    "        .target = target,\n" ++
    "        .optimize = optimize,\n" ++
    "        .pic = true,\n" ++
    "    \x7d);\n" ++
    "    lib.linkLibC();"

def bottom : String := "    b.installArtifact(lib);\n" ++ "\x7d\n"

/-- The line of the step that compiles a C source, without its indentation. -/
def sourceLine (src : Path) : List Char :=
  stepStart.toList ++ ((quote src.generic).toList ++ (stepFlags.toList ++
    ((quote ("-I" ++ src.parent.generic)).toList ++ stepEnd.toList)))

/-- The lines above the steps, without their indentation. -/
def linesAbove : List String :=
  ["// Generated by zbgen. Do not edit.",
    "const std = @import(\"std\");",
    "",
    "pub fn build(b: *std.Build) void \x7b",
    "var query = b.standardTargetOptionsQueryOnly(.\x7b\x7d);",
    "query.cpu_model = .baseline;",
    "const target = b.resolveTargetQuery(query);",
    "const optimize = b.standardOptimizeOption(.\x7b\x7d);",
    "",
    "const lib = b.addStaticLibrary(.\x7b",
    ".name = \"zigbind_foreign\",",
    ".root_source_file = b.path(\"zigbind_entry.zig\"),",
    ".target = target,",
    ".optimize = optimize,",
    ".pic = true,",
    "\x7d);",
    "lib.linkLibC();"]

/-- The lines below the steps. -/
def linesBelow : List String := ["b.installArtifact(lib);", "\x7d", ""]

/-- A C source whose path can be written in a script. -/
def IsSpelled (src : Path) : Prop := IsQuotable src.generic ∧ IsQuotable src.parent.generic

variable {src : Path} {auxiliary : List Path} {name : String}

theorem toList_feed : "\n".toList = ['\n'] := by decide

theorem sourceStep_eq (src : Path) : sourceStep src = "    " ++ stepStart ++ quote src.generic ++
    stepFlags ++ quote ("-I" ++ src.parent.generic) ++ (stepEnd ++ "\n") := by
  have hstart : "    lib.addCSourceFile(.\x7b .file = .\x7b .cwd_relative = " =
    "    " ++ stepStart := by cbv
  have hend : " \x7d \x7d);\n" = stepEnd ++ "\n" := by cbv
  unfold sourceStep
  rw [hstart, hend]
  rfl

theorem toList_sourceStep (src : Path) :
    (sourceStep src).toList = "    ".toList ++ (sourceLine src ++ ['\n']) := by
  -- Over variables no literal is taken apart into its characters.
  have hparts (a b c d e f g : String) : (a ++ b ++ c ++ d ++ e ++ (f ++ g)).toList =
      a.toList ++
        ((b.toList ++ (c.toList ++ (d.toList ++ (e.toList ++ f.toList)))) ++ g.toList) := by
    simp only [String.toList_append, List.append_assoc]
  have hstep := congrArg String.toList (sourceStep_eq src)
  rw [hparts, toList_feed] at hstep
  exact hstep

theorem render_eq (auxiliary : List Path) : render Staging.entryName auxiliary =
    top ++ "\n" ++ String.join (auxiliary.map sourceStep) ++ bottom := by
  have hlast : "    lib.linkLibC();\n" = "    lib.linkLibC();" ++ "\n" := by cbv
  have hparts (a b c d e f : String) :
      a ++ (b ++ c) ++ d ++ e ++ f = a ++ b ++ c ++ d ++ (e ++ f) := by
    simp only [String.append_assoc]
  unfold render
  rw [hlast, hparts]
  rfl

theorem toList_render (auxiliary : List Path) :
    (render Staging.entryName auxiliary).toList = top.toList ++ '\n' ::
      (auxiliary.flatMap (fun src => "    ".toList ++ (sourceLine src ++ ['\n'])) ++
        bottom.toList) := by
  have hparts (a b : String) (cs : List String) (d : String) :
      (a ++ b ++ String.join cs ++ d).toList =
        a.toList ++ (b.toList ++ (cs.flatMap String.toList ++ d.toList)) := by
    simp only [String.toList_append, String.toList_join, List.append_assoc]
  have hrender := congrArg String.toList (render_eq auxiliary)
  rw [hparts, toList_feed, List.flatMap_map, funext toList_sourceStep] at hrender
  exact hrender

/-- What the line of a step begins with. -/
theorem head?_sourceLine (src : Path) : (sourceLine src).head? = some 'l' := by
  have hstart : stepStart.toList.head? = some 'l' := by cbv
  rw [sourceLine, List.head?_append, hstart, Option.some_or]

theorem isQuotable_append {s t : String} (hs : IsQuotable s) (ht : IsQuotable t) :
    IsQuotable (s ++ t) := by
  intro c hc
  rw [String.toList_append] at hc
  rcases List.mem_append.1 hc with hc | hc
  · exact hs c hc
  · exact ht c hc

/-- The option for the directory of a source. -/
theorem IsSpelled.isQuotable_include (h : IsSpelled src) :
    IsQuotable ("-I" ++ src.parent.generic) := by
  have hall : "-I".toList.all isPlain = true := by decide
  exact isQuotable_append (List.all_eq_true.1 hall) h.2

theorem not_mem_sourceLine (h : IsSpelled src) : '\n' ∉ sourceLine src := by
  have hstart : '\n' ∉ stepStart.toList := by simp [stepStart]
  have hflags : '\n' ∉ stepFlags.toList := by simp [stepFlags]
  have hend : '\n' ∉ stepEnd.toList := by simp [stepEnd]
  simp only [sourceLine, List.mem_append, not_or]
  exact ⟨hstart, not_mem_quote h.1, hflags, not_mem_quote h.isQuotable_include, hend⟩

/-- The step of a C source is read back. -/
theorem source?_sourceLine (h : IsSpelled src) :
    source? (sourceLine src) = some (⟨src.generic⟩, ⟨src.parent.generic⟩) := by
  rw [source?, sourceLine]
  generalize stepStart.toList = start, stepFlags.toList = flags, stepEnd.toList = finish
  simp only [Text.dropPrefix?_append, quoted?_quote h.1, quoted?_quote h.isQuotable_include,
    Option.bind_eq_bind, Option.bind_some, String.toList_append, String.ofList_toList]
  exact if_pos trivial

/-! The blanks that a step is indented with. -/

theorem toList_indent : "    ".toList = [' ', ' ', ' ', ' '] := by decide

theorem not_mem_indented {line : List Char} (h : '\n' ∉ line) : '\n' ∉ "    ".toList ++ line := by
  rw [toList_indent]
  simpa using h

theorem dropWhile_indented {line : List Char} (h : line.head? = some 'l') :
    ("    ".toList ++ line).dropWhile (· = ' ') = line := by
  obtain ⟨rest, rfl⟩ := List.head?_eq_some_iff.1 h
  rw [toList_indent]
  simp

/-- What follows the part of a script that is always the same. -/
def body (auxiliary : List Path) : List Char :=
  auxiliary.flatMap (fun src => "    ".toList ++ (sourceLine src ++ ['\n'])) ++ bottom.toList

theorem lines_render_eq (auxiliary : List Path) :
    lines (render Staging.entryName auxiliary) =
      lines top ++ (Text.splitOn '\n' (body auxiliary)).map (·.dropWhile (· = ' ')) := by
  rw [lines, toList_render, Text.splitOn_append_cons, List.map_append]
  rfl

/-- The lines of a rendered script: one for each C source between those that are always there. -/
theorem lines_render (h : ∀ src ∈ auxiliary, IsSpelled src) :
    lines (render Staging.entryName auxiliary) =
      lines top ++ auxiliary.map sourceLine ++ lines bottom := by
  have hsteps : ∀ cs, ((Text.splitOn '\n' (auxiliary.flatMap (fun src =>
      "    ".toList ++ (sourceLine src ++ ['\n'])) ++ cs)).map (·.dropWhile (· = ' '))) =
      auxiliary.map sourceLine ++ (Text.splitOn '\n' cs).map (·.dropWhile (· = ' ')) := by
    intro cs
    induction auxiliary with
    | nil => rfl
    | cons src auxiliary ih =>
      obtain ⟨hsrc, hrest⟩ := List.forall_mem_cons.1 h
      have hline : '\n' ∉ "    ".toList ++ sourceLine src :=
        not_mem_indented (not_mem_sourceLine hsrc)
      have hindent : ("    ".toList ++ sourceLine src).dropWhile (· = ' ') = sourceLine src :=
        dropWhile_indented (head?_sourceLine src)
      rw [List.flatMap_cons, ← List.append_assoc "    ".toList, List.append_assoc,
        List.append_assoc, List.singleton_append, Text.splitOn_append_cons, List.map_append,
        ih hrest, Text.splitOn_of_not_mem hline, List.map_singleton, hindent, List.map_cons,
        List.singleton_append, List.cons_append]
  rw [lines_render_eq, body, hsteps, List.append_assoc]
  rfl

set_option maxRecDepth 4000 in
theorem lines_top : lines top = linesAbove.map String.toList := by
  unfold lines top Staging.entryName linesAbove
  simp only [String.toList_append, List.map_cons, List.map_nil]
  -- The characters of a literal are listed, and need not be decoded.
  repeat rw [String.toList_ofList]
  cbv

theorem lines_bottom : lines bottom = linesBelow.map String.toList := by
  unfold lines bottom linesBelow
  simp only [String.toList_append, List.map_cons, List.map_nil]
  repeat rw [String.toList_ofList]
  cbv

theorem dropPrefix?_of_head?_ne {front line : List Char} {c d : Char}
    (hfront : front.head? = some c) (hline : line.head? = some d) (h : c ≠ d) :
    line.dropPrefix? front = none := by
  obtain ⟨front, rfl⟩ := List.head?_eq_some_iff.1 hfront
  obtain ⟨line, rfl⟩ := List.head?_eq_some_iff.1 hline
  rw [List.dropPrefix?, beq_false_of_ne h.symm, if_neg Bool.false_ne_true]

/-- The settings of every script, each made once. -/
def settings : List (String × String) :=
  [("query.cpu_model", ".baseline"),
    ("var query", "b.standardTargetOptionsQueryOnly(.\x7b\x7d)"),
    ("const target", "b.resolveTargetQuery(query)"),
    (".target", "target"),
    ("const optimize", "b.standardOptimizeOption(.\x7b\x7d)"),
    (".optimize", "optimize"),
    (".name", "\"zigbind_foreign\"")]

/-- The lines of every script. -/
def fixedLines : List (List Char) := linesAbove.map String.toList ++ linesBelow.map String.toList

theorem values_settings : ∀ x ∈ settings,
    (x.1 ++ " = ").toList.head?.any (· ≠ 'l') = true ∧ values x.1 fixedLines = [x.2] := by
  unfold settings values value? fixedLines linesAbove linesBelow
  simp only [List.forall_mem_cons, List.not_mem_nil, false_imp_iff, implies_true, List.map_cons,
    List.map_nil, String.toList_append]
  repeat rw [String.toList_ofList]
  cbv

/-- No step for a C source is a setting. -/
theorem values_lines (h : ∀ src ∈ auxiliary, IsSpelled src)
    (hname : (name ++ " = ").toList.head?.any (· ≠ 'l') = true) :
    values name (lines (render Staging.entryName auxiliary)) = values name fixedLines := by
  obtain ⟨c, hc, hl⟩ := (Option.any_eq_true _ _).1 hname
  have hsteps : (auxiliary.map sourceLine).filterMap (value? name) = [] := by
    refine List.filterMap_eq_nil_iff.2 fun line hline => ?_
    obtain ⟨src, -, rfl⟩ := List.mem_map.1 hline
    rw [value?, dropPrefix?_of_head?_ne hc (head?_sourceLine src) (of_decide_eq_true hl),
      Option.map_none]
  rw [lines_render h, lines_top, lines_bottom, values, values, fixedLines, List.filterMap_append,
    List.filterMap_append, List.filterMap_append, hsteps, List.append_nil]

theorem sources_linesAbove : (linesAbove.map String.toList).filterMap source? = [] := by
  unfold linesAbove source? stepStart
  simp only [List.map_cons, List.map_nil]
  repeat rw [String.toList_ofList]
  cbv

theorem sources_lines (h : ∀ src ∈ auxiliary, IsSpelled src) :
    (lines (render Staging.entryName auxiliary)).filterMap source? =
      auxiliary.map fun src => (⟨src.generic⟩, ⟨src.parent.generic⟩) := by
  have hbelow : (linesBelow.map String.toList).filterMap source? = [] := by cbv
  have hsteps : (auxiliary.map sourceLine).filterMap source? =
      auxiliary.map fun src => (⟨src.generic⟩, ⟨src.parent.generic⟩) := by
    rw [List.filterMap_map, ← List.filterMap_eq_map]
    exact List.filterMap_congr fun src hsrc => source?_sourceLine (h src hsrc)
  rw [lines_render h, lines_top, lines_bottom, List.filterMap_append, List.filterMap_append,
    sources_linesAbove, hbelow, hsteps, List.nil_append, List.append_nil]

theorem mem_lines_of_mem_below {line : List Char} (h : ∀ src ∈ auxiliary, IsSpelled src)
    (hline : line ∈ linesBelow.map String.toList) :
    line ∈ lines (render Staging.entryName auxiliary) := by
  rw [lines_render h, lines_bottom]
  exact List.mem_append_right _ hline

/-- What a rendered script says: a static library for the target and with the optimisation that the
build asks for, compiled for a baseline processor from every auxiliary source in turn. -/
theorem read_render (h : ∀ src ∈ auxiliary, IsSpelled src) :
    read (render Staging.entryName auxiliary) =
      { processors := [".baseline"], takesTarget := true, takesOptimization := true,
        installed := ["zigbind_foreign"],
        sources := auxiliary.map fun src => (⟨src.generic⟩, ⟨src.parent.generic⟩) } := by
  have hinstall : (lines (render Staging.entryName auxiliary)).contains
      "b.installArtifact(lib);".toList = true :=
    List.elem_eq_true_of_mem (mem_lines_of_mem_below h (by simp [linesBelow]))
  have hvalue {name value : String} (hmem : (name, value) ∈ settings) :
      values name (lines (render Staging.entryName auxiliary)) = [value] := by
    obtain ⟨hname, hfixed⟩ := values_settings _ hmem
    exact (values_lines h hname).trans hfixed
  have hprocessor := @hvalue "query.cpu_model" ".baseline" (by simp [settings])
  have hquery := @hvalue "var query" "b.standardTargetOptionsQueryOnly(.\x7b\x7d)"
    (by simp [settings])
  have hresolved := @hvalue "const target" "b.resolveTargetQuery(query)" (by simp [settings])
  have htarget := @hvalue ".target" "target" (by simp [settings])
  have hoption := @hvalue "const optimize" "b.standardOptimizeOption(.\x7b\x7d)" (by simp [settings])
  have hoptimize := @hvalue ".optimize" "optimize" (by simp [settings])
  have hname := @hvalue ".name" "\"zigbind_foreign\"" (by simp [settings])
  rw [read, Reading.ofLines, Reading.mk.injEq]
  refine ⟨hprocessor, decide_eq_true ⟨hquery, hresolved, htarget⟩,
    decide_eq_true ⟨hoption, hoptimize⟩, ?_, sources_lines h⟩
  rw [if_pos hinstall, hname]
  cbv

/-- A line feed in the path of a C source ends its string too early, and no source is left. -/
theorem sources_render_cut :
    (read (render Staging.entryName [⟨"/a\nb/x.c"⟩])).sources = [] := by
  have hbody : ((Text.splitOn '\n' (body [⟨"/a\nb/x.c"⟩])).map (·.dropWhile (· = ' '))).filterMap
      source? = [] := by
    decide +kernel
  rw [read, Reading.ofLines, lines_render_eq, List.filterMap_append, lines_top, sources_linesAbove,
    hbody, List.append_nil]

end BuildScript
end Bindery
