import Bindery.Path

/-!
# The build script

The script of a modular build compiles the entry file and every auxiliary source for a baseline
processor into one static library.
-/
namespace Bindery.BuildScript

def escape : List Char → List Char
  | [] => []
  | c :: cs => if c = '\\' ∨ c = '"' then '\\' :: c :: escape cs else c :: escape cs

/-- A quoted string of the foreign language. -/
def quote (s : String) : String := "\"" ++ String.ofList (escape s.toList) ++ "\""

/-- The step that compiles an auxiliary source, with its directory for headers. -/
def sourceStep (src : Path) : String :=
  "    lib.addCSourceFile(.\x7b .file = .\x7b .cwd_relative = " ++ quote src.generic ++
    " \x7d, .flags = &.\x7b \"-fPIC\", " ++ quote ("-I" ++ src.parent.generic) ++ " \x7d \x7d);\n"

def render (entry : String) (auxiliary : List Path) : String :=
  "// Generated by zbgen. Do not edit.\n" ++
    "const std = @import(\"std\");\n\n" ++
    "pub fn build(b: *std.Build) void \x7b\n" ++
    "    var query = b.standardTargetOptionsQueryOnly(.\x7b\x7d);\n" ++
    "    query.cpu_model = .baseline;\n" ++
    "    const target = b.resolveTargetQuery(query);\n" ++
    "    const optimize = b.standardOptimizeOption(.\x7b\x7d);\n\n" ++
    "    const lib = b.addStaticLibrary(.\x7b\n" ++
    "        .name = \"zigbind_foreign\",\n" ++
    "        .root_source_file = b.path(\"" ++ entry ++ "\"),\n" ++
    "        .target = target,\n" ++
    "        .optimize = optimize,\n" ++
    "        .pic = true,\n" ++
    "    \x7d);\n" ++
    "    lib.linkLibC();\n" ++
    String.join (auxiliary.map sourceStep) ++
    "    b.installArtifact(lib);\n" ++
    "\x7d\n"

end Bindery.BuildScript
