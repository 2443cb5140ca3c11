import ExtensibleCheck.Diagnostic.Compiler
import ExtensibleCheck.Program.Path
import ExtensibleCheck.Program.Settings
import ExtensibleCheck.Program.Sources
import ExtensibleCheck.Session.Check

/-! From file names to a program, and on to its check. A program is made only of files that exist
and in which the compiler finds no errors of syntax; then the checking pass takes over. -/

namespace ExtensibleCheck

/-- What the compiler says about the files it was given. -/
structure Compilation where
  optionFindings : List CompilerDiagnostic := []
  syntaxFindings : List CompilerDiagnostic := []
  /-- The source file that the compiler knows under a name, if any. -/
  sourceFile? : String → Option SourceFile := fun _ => none

/-- The compiler and the file system that it works on. -/
structure CompilerHost (α : Type) where
  /-- Where relative paths start. -/
  directory : String
  fileExists : String → Bool
  compile : List String → Settings α → Compilation

namespace Compilation

/-- The program of the files with the given names, unless the compiler found errors. Names that it
knows no source file for are passed over. -/
def program (c : Compilation) (names : List String) : Except Collector Program :=
  let findings := CompilerDiagnostic.collect c.optionFindings c.syntaxFindings
  if findings.hasErrors then .error findings else .ok ⟨names.filterMap c.sourceFile?⟩

end Compilation

namespace Program

variable {α : Type}

/-- One finding for every file that does not exist. -/
def missingSource (path : String) : Diagnostic :=
  ⟨.missingSource, .error, "Source file not found: " ++ path, none⟩

/-- A program of files on disk. -/
def ofFiles (host : CompilerHost α) (paths : List String) (overrides : List (String × α)) :
    Except Collector Program :=
  let resolved := paths.map (Path.resolve host.directory)
  match resolved.filter (!host.fileExists ·) with
  | [] => (host.compile resolved (.overridden overrides)).program resolved
  | missing => .error (Collector.empty.addAll (missing.map missingSource))

/-- A program of sources in memory, given by name and text. -/
def ofSources (compile : List (String × String) → Settings α → Compilation)
    (sources : List (String × String)) (overrides : List (String × α)) : Except Collector Program :=
  let sources := ordered sources
  (compile sources (.overridden overrides)).program (sources.map (·.1))

/-- What is printed about a program that was made. -/
def announcement (p : Program) : String :=
  "Created program with " ++ toString p.files.length ++ " root file(s)"

end Program

/-- Makes a program of files on disk and checks it. -/
def Checker.checkFiles {ι μ α : Type} [DecidableEq ι] (c : Program → Checker ι μ) (verbose : Bool)
    (host : CompilerHost α) (paths : List String) (overrides : List (String × α)) :
    Session ι μ Verdict := do
  match Program.ofFiles host paths overrides with
  | .error findings => return .error findings
  | .ok program =>
    if verbose then Session.print program.announcement
    (c program).check program

end ExtensibleCheck
