import CBoundary.CheckReport

/-!
The command line. A command either checks a project or tells about the program itself. What it
prints and its exit status are a value, so that only printing is left to do.
-/
namespace CBoundary

/-- How a command ended. -/
inductive ExitStatus where
  | success
  /-- The check recorded errors. -/
  | errors
  /-- The arguments could not be read. -/
  | usage
  /-- The command could not be carried out. -/
  | fatal
deriving DecidableEq, Repr, Inhabited

def ExitStatus.code : ExitStatus → UInt32
  | .success => 0
  | .errors => 1
  | .usage => 2
  | .fatal => 3

/-- What a command leaves behind: its exit status and what it prints. -/
structure CommandOutcome where
  status : ExitStatus
  output : String
  errorOutput : String
deriving DecidableEq, Repr, Inhabited

/-- A command with its arguments. -/
inductive Command where
  | none
  | check (arguments : List String)
  | help
  | version
  | unknown (name : String)
deriving DecidableEq, Repr, Inhabited

namespace Command

/-- Reads a command off the arguments of the program. -/
def ofArguments : List String → Command
  | [] => .none
  | name :: arguments =>
      if name == "check" then .check arguments
      else if ["help", "--help", "-h"].contains name then .help
      else if ["version", "--version", "-V"].contains name then .version
      else .unknown name

/-- How the program is used. -/
def usageText : String :=
  String.join ([
    "Usage: layerc check <root> [options]",
    "",
    "Options:",
    "  --module=<name>[:<dir>]   Treat src/<dir> as module <name> (repeatable)",
    "  --extra-file=<path>       Scan an extra file, relative to <root>",
    "  --define=<NAME[(a,b)]=body>  Predefine a macro",
    "  --threads=<n>             Worker threads (default: all cores)",
    "  --no-parallel             Scan files one at a time",
    "  --cache                   Reuse scans from build/.parsecache",
    "  --clear-cache             Delete the scan cache first",
    "  --warn-module-mismatch    Report definitions seen in two modules",
    "  -v, --verbose             Per-module summary and debug logging"].map CheckReport.line)

def versionText : String := CheckReport.line "layerc 0.1.0"

/-- A complaint as it is printed. -/
def complaint (message : String) : String := CheckReport.line s!"error: {message}"

/-- The outcome of a check. -/
def checkOutcome (verbose : Bool) : Except ScanError CheckReport → CommandOutcome
  | .error e => ⟨.fatal, "", complaint e.message⟩
  | .ok report =>
      ⟨if report.isClean then .success else .errors, report.render verbose, ""⟩

variable {m : Type → Type} [Monad m] [FileAccess m]

/-- Carries out a command. Scans are kept in the given form. -/
def run (form : StoredForm SourceScan) : Command → m CommandOutcome
  | .none => return ⟨.usage, "", usageText⟩
  | .help => return ⟨.success, "", usageText⟩
  | .version => return ⟨.success, versionText, ""⟩
  | .unknown name =>
      return ⟨.usage, "", CheckReport.line s!"Unknown command: {name}" ++ CheckReport.line "" ++
        usageText⟩
  | .check arguments =>
      match CheckOptions.parse arguments with
      | .error e => return ⟨.usage, "", complaint e.message ++ usageText⟩
      | .ok options => do return checkOutcome options.verbose (← (options.run form).run)

end Command

end CBoundary
