import CBoundary.DecimalNumeral
import CBoundary.ModuleConfig

/-!
The arguments of a check. Options may come in any order and before or after the one argument
that is none, the root of the project. The first argument that cannot be read is reported, and
a missing root only after all others have been read.
-/
namespace CBoundary

/-- What a check is asked to do. -/
structure CheckOptions where
  root : SourcePath
  /-- If there are none, every directory right below the source directory is a module. -/
  modules : List Module
  extraFiles : List SourcePath
  extraMacros : List ExtraMacro
  parallel : Bool
  threads : Nat
  cache : Bool
  clearCache : Bool
  warnModuleMismatch : Bool
  verbose : Bool
deriving DecidableEq, Repr, Inhabited

/-- Why the arguments of a check cannot be read. -/
inductive UsageError where
  | missingRoot
  | unexpectedArgument (argument : String)
  | unknownOption (argument : String)
  | invalidValue (option value : String)
deriving DecidableEq, Repr, Inhabited

def UsageError.message : UsageError → String
  | .missingRoot => "missing project root"
  | .unexpectedArgument argument => s!"unexpected argument '{argument}'"
  | .unknownOption argument => s!"unknown option '{argument}'"
  | .invalidValue option value => s!"invalid value '{value}' for {option}"

/-- What one argument asks for. -/
inductive CheckArgument where
  | root (path : SourcePath)
  | module (m : Module)
  | extraFile (path : SourcePath)
  | define (m : ExtraMacro)
  | threads (count : Nat)
  | sequential
  | cache
  | clearCache
  | warnModuleMismatch
  | verbose
deriving DecidableEq, Repr, Inhabited

namespace CheckArgument

/-- Reads a module, either `name` or `name:directory`. -/
def module? (value : String) : Option Module :=
  let text := value.toList
  let name := text.takeWhile (· != ':')
  match text.dropWhile (· != ':') with
  | [] => if name.isEmpty then none else some (Module.named value)
  | _ :: directory =>
      if name.isEmpty || directory.isEmpty then none
      else some ⟨String.ofList name, String.ofList directory⟩

/-- Reads a path that is not empty. -/
def file? (value : String) : Option SourcePath := if value == "" then none else some ⟨value⟩

/-- The number of threads is below this bound. -/
def threadBound : Nat := 18446744073709551616

/-- The options that take a value, and how the value is read. -/
def valued : List (String × (String → Option CheckArgument)) :=
  [("--module", fun value => (module? value).map module),
   ("--extra-file", fun value => (file? value).map extraFile),
   ("--define", fun value => (ExtraMacro.parse? value).map define),
   ("--threads", fun value => (DecimalNumeral.read? threadBound value.toList).map threads)]

/-- The options without a value. -/
def plain : List (String × CheckArgument) :=
  [("--no-parallel", sequential), ("--cache", cache), ("--clear-cache", clearCache),
   ("--warn-module-mismatch", warnModuleMismatch), ("-v", verbose), ("--verbose", verbose)]

/-- The option that takes a value and is given in the argument, how its value is read, and the
value. -/
def valuedOption? (argument : String) :
    Option (String × (String → Option CheckArgument) × String) :=
  valued.findSome? fun (option, read?) =>
    (NamingConvention.behind? (option ++ "=").toList argument.toList).map fun value =>
      (option, read?, String.ofList value)

/-- Reads one argument. What starts with a dash and is no option is refused. -/
def read (argument : String) : Except UsageError CheckArgument :=
  match valuedOption? argument with
  | some (option, read?, value) =>
      ((read? value).map Except.ok).getD (.error (.invalidValue option value))
  | none =>
      match plain.lookup argument with
      | some asked => .ok asked
      | none =>
          if argument.toList.head? == some '-' then .error (.unknownOption argument)
          else .ok (.root ⟨argument⟩)

end CheckArgument

namespace CheckOptions

/-- The options of a check of a project, as long as nothing else is asked for. -/
def standard (root : SourcePath) : CheckOptions :=
  { root, modules := [], extraFiles := [], extraMacros := [], parallel := true, threads := 0,
    cache := false, clearCache := false, warnModuleMismatch := false, verbose := false }

/-- What has been read of the arguments: the options, and whether the root is among them. -/
structure Partial where
  options : CheckOptions
  hasRoot : Bool
deriving DecidableEq, Repr, Inhabited

/-- Takes in one more argument. -/
def Partial.take (p : Partial) (argument : String) : Except UsageError Partial := do
  let o := p.options
  let kept (options : CheckOptions) : Except UsageError Partial := .ok { p with options }
  match ← CheckArgument.read argument with
  | .root path =>
      if p.hasRoot then .error (.unexpectedArgument argument)
      else return ⟨{ o with root := path }, true⟩
  | .module m => kept { o with modules := o.modules ++ [m] }
  | .extraFile path => kept { o with extraFiles := o.extraFiles ++ [path] }
  | .define m => kept { o with extraMacros := o.extraMacros ++ [m] }
  | .threads count => kept { o with threads := count }
  | .sequential => kept { o with parallel := false }
  | .cache => kept { o with cache := true }
  | .clearCache => kept { o with clearCache := true }
  | .warnModuleMismatch => kept { o with warnModuleMismatch := true }
  | .verbose => kept { o with verbose := true }

/-- Reads the arguments of a check. -/
def parse (arguments : List String) : Except UsageError CheckOptions := do
  let read ← arguments.foldlM Partial.take ⟨standard ⟨""⟩, false⟩
  if read.hasRoot then return read.options else .error .missingRoot

end CheckOptions

end CBoundary
