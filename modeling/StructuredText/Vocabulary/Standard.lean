import StructuredText.Vocabulary.Basic

/-!
# The default vocabulary

The words of the language and of its standard library. Most entries are plain words; a few describe
a family of words, such as the conversion functions `INT_TO_REAL` and `TO_INT`, or the sign that
opens a date or time literal.
-/

namespace StructuredText.Vocabulary

/-- Functions of the standard library, and then the families of conversion functions. -/
def standardFunctions : List String :=
  ["abs", "acos", "asin", "atan", "cos", "exp", "expt", "ln", "log", "sin", "sqrt", "tan",
   "mod", "sel", "mux", "shl", "shr", "rol", "ror", "add", "div", "mul", "sub", "limit", "max",
   "min", "adr", "adrinst", "size", "sizeof", "bit_adr", "bit_trunc", "rs", "sr", "ton", "tp",
   "tof", "trunc", "ctd", "ctu", "ctud", "r_trig", "f_trig", "move", "concat", "delete",
   "find", "insert", "left", "len", "replace", "right", "rtc", "mid", "sema", "round", "floor",
   "ceil", "unpack", "ref", "__new", "__delete", "[A-Za-z_]*_TO_[A-Za-z_]*",
   "(?:TO_|FROM_|TRUNC_)[A-Za-z_]*"]

/-- Words of declarations, statements and expressions, the openings of date and time literals, and
the kinds of variable sections. -/
def standardKeywords : List String :=
  ["true", "false", "exit", "continue", "return", "constant", "retain", "public", "private",
   "protected", "abstract", "persistent", "internal", "final", "of", "else", "elsif", "then",
   "__try", "__catch", "__finally", "__endtry", "do", "to", "by", "task", "with", "using",
   "uses", "from", "until", "or", "or_else", "and", "and_then", "not", "xor", "nor", "ge",
   "le", "eq", "ne", "gt", "lt", "extends", "implements", "this", "super",
   "(?:T|DT|TOD|D)#(?=[0-9])",
   "var_(?:input|output|in_out|temp|global|access|external|inst|stat|config)"]

/-- Elementary types and the words of type declarations. -/
def standardTypes : List String :=
  ["AT", "BOOL", "BYTE", "(?:D|L)?WORD", "U?(?:S|D|L)?INT", "L?REAL", "TIME(?:_OF_DAY)?",
   "TOD", "TON", "DT", "DATE(?:_AND_TIME)?", "W?STRING", "ARRAY", "ANY",
   "ANY_(?:NUM|INT|REAL)", "POINTER", "REFERENCE"]

/-- Names of regions that are closed by the name behind `END_`. -/
def standardBlockNames : List String :=
  ["var", "program", "if", "case", "while", "for", "repeat", "function", "function_block",
   "struct", "configuration", "tcp", "resource", "channel", "library", "folder", "binaries",
   "includes", "sources", "action", "step", "initial_step", "transition", "type", "namespace",
   "implementation", "interface", "property", "get", "set", "method", "union", "class"]

/-- The vocabulary that holds where a document brings none of its own. -/
def standard : Vocabulary :=
  ⟨standardFunctions, standardKeywords, standardTypes, standardBlockNames⟩

end StructuredText.Vocabulary
