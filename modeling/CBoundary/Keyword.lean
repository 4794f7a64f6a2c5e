import CBoundary.TokenList

/-!
The words of C that the heuristics treat specially: qualifiers that carry no type identity,
the words that introduce records and control flow, and the built-in types. None of them can
be the name of a declaration.
-/
namespace CBoundary.Keyword

/-- Qualifiers and storage classes. They are dropped from the types that are read off a
declaration. -/
def qualifiers : List String :=
  ["const", "static", "volatile", "extern", "register", "inline", "__inline", "__inline__",
   "restrict", "__restrict", "typedef", "auto", "_Noreturn", "_Thread_local"]

/-- The words that introduce a record definition. -/
def recordWords : List String := ["struct", "union", "enum"]

/-- The words that start a control statement. -/
def controlWords : List String :=
  ["return", "if", "else", "for", "while", "do", "switch", "case", "default", "goto", "break",
   "continue"]

/-- The built-in type specifiers. -/
def builtinTypes : List String :=
  ["void", "char", "short", "int", "long", "float", "double", "signed", "unsigned", "_Bool",
   "_Complex"]

/-- Annotation words that are skipped, together with a parenthesized group right after each,
unless a project names its own. -/
def defaultAnnotations : List String :=
  ["__attribute__", "WT_GCC_FUNC_ATTRIBUTE", "WT_GCC_FUNC_DECL_ATTRIBUTE", "WT_INLINE",
   "WT_ATTRIBUTE_LIBRARY_VISIBLE", "inline", "__inline"]

def isQualifier (word : String) : Bool := qualifiers.contains word

def isRecordWord (word : String) : Bool := recordWords.contains word

def isControlWord (word : String) : Bool := controlWords.contains word

/-- A word that cannot be the name of a declaration. -/
def isReserved (word : String) : Bool :=
  isQualifier word || isRecordWord word || isControlWord word || builtinTypes.contains word ||
    word == "sizeof"

/-- An identifier that can be the name of a declaration. -/
def isName (t : Token) : Bool := t.isIdent && !isReserved t.text

/-- A word token that is one of `words`. -/
def isWordAmong (words : List String) (t : Token) : Bool :=
  t.kind == .word && words.contains t.text

/-- The tokens of a type without its qualifiers. -/
def withoutQualifiers (tokens : List Token) : List Token :=
  tokens.filter fun t => !isQualifier t.text

/-- The name that identifies a type: its last identifier that is neither a qualifier nor a
record word. Empty if there is none. -/
def baseType (tokens : List Token) : String :=
  ((TokenList.code tokens).reverse.find? fun t =>
    t.isIdent && !isQualifier t.text && !isRecordWord t.text).elim "" Token.text

end CBoundary.Keyword
