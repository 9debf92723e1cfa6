import ArturoInsight.Catalog.Basic

/-! The shipped catalog. -/

namespace ArturoInsight.Catalog.Shipped

def types : List (String × String) :=
  [("null", "Null value"),
   ("logical", "Boolean value (true, false, maybe)"),
   ("integer", "Integer number"),
   ("floating", "Floating-point number"),
   ("complex", "Complex number"),
   ("rational", "Rational number (ratio)"),
   ("version", "SemVer version number"),
   ("type", "Type value"),
   ("char", "Single character"),
   ("string", "String of characters"),
   ("regex", "Regular expression"),
   ("literal", "Literal value (unevaluated word)"),
   ("block", "Block of code"),
   ("dictionary", "Dictionary/hash table"),
   ("function", "Function value"),
   ("method", "Method (function with this context)"),
   ("object", "Custom type instance"),
   ("module", "Encapsulated namespace"),
   ("path", "Path to nested value"),
   ("inline", "Inline expression (parentheses)"),
   ("range", "Lazy range of values"),
   ("date", "Date/time value"),
   ("unit", "Physical unit"),
   ("quantity", "Numeric value with unit"),
   ("color", "Color value"),
   ("binary", "Binary data"),
   ("database", "Database connection"),
   ("socket", "Network socket"),
   ("error", "Error value"),
   ("any", "Any type")]

def words : List String :=
  ["abs", "absolute", "absolute?", "acceleration?", "accept", "acos", "acosh", "acsec", "acsech",
   "actan", "actanh", "action?", "add", "after", "alert", "alias", "all?", "alphaParticleMass",
   "alphabet", "and", "and?", "angle", "angle?", "angstromStar", "angularVelocity?", "any", "any?",
   "append", "area?", "areaDensity?", "arg", "args", "arithmeticError", "arity", "arrange", "array",
   "ascii?", "asec", "asech", "asin", "asinh", "assertionError", "atan", "atan2", "atanh",
   "atomicMass", "attr", "attr?", "attribute?", "attributeLabel?", "attrs", "average",
   "avogadroConstant", "before", "benchmark", "between?", "binary?", "blend", "block?",
   "bohrRadius", "boltzmannConstant", "break", "browse", "bytecode?", "call", "capacitance?",
   "capitalize", "case", "ceil", "char?", "charge?", "chop", "chunk", "clamp",
   "classicalElectronRadius", "clear", "clip", "close", "cluster", "coalesce", "collect", "color",
   "color?", "combine", "compare", "complex?", "conductance?", "conductanceQuantum", "config",
   "conforms?", "conj", "connect", "constructor", "contains?", "continue", "conversionError",
   "convert", "copy", "cos", "cosh", "couple", "crc", "csec", "csech", "ctan", "ctanh", "currency?",
   "current?", "currentDensity?", "cursor", "darken", "dataTransferRate?", "database?", "date?",
   "dec", "decode", "decouple", "define", "defined?", "delete", "denominator", "density?",
   "desaturate", "deuteronMass", "deviation", "dialog", "dictionary", "dictionary?", "difference",
   "digest", "digits", "directory?", "discard", "disjoint?", "div", "divmod", "do", "download",
   "drop", "dup", "elastance?", "electricField?", "electricityPrice?", "electronCharge",
   "electronMass", "electronMassEnergy", "empty", "empty?", "encode", "energy?", "ensure",
   "entropy?", "enumerate", "env", "epsilon", "equal?", "error?", "errorKind?", "escape", "even?",
   "every?", "execute", "exists?", "exit", "exp", "export", "express", "extend", "extract",
   "factorial", "factors", "false", "false?", "fdiv", "file?", "filter", "first", "flatten",
   "floating?", "floor", "fold", "force?", "frequency?", "friday?", "function", "function?",
   "future?", "gamma", "gather", "gcd", "get", "goto", "gravitationalConstant", "grayscale",
   "greater?", "greaterOrEqual?", "hartreeEnergy", "hash", "heatFlux?", "helionMass", "hidden?",
   "hypot", "if", "illuminance?", "impedanceOfVacuum", "import", "in", "in?", "inc", "indent",
   "index", "indexError", "inductance?", "infinite", "infinite?", "info", "information?", "inline?",
   "input", "insert", "inspect", "integer?", "intersect?", "intersection",
   "inverseConductanceQuantum", "invert", "is", "is?", "jaro", "jerk?", "join", "josephsonConstant",
   "key?", "keys", "kinematicViscosity?", "kurtosis", "label?", "last", "lcm", "leap?", "length?",
   "less?", "lessOrEqual?", "let", "levenshtein", "libraryError", "lighten", "list", "listen",
   "literal?", "ln", "log", "logical?", "loop", "lower", "lower?", "luminosity?", "luminousFlux?",
   "magneticFieldStrength?", "magneticFlux?", "magneticFluxDensity?", "magneticFluxQuantum", "mail",
   "map", "mass?", "massFlowRate?", "match", "match?", "max", "maximum", "maybe", "median",
   "method", "method?", "methods", "min", "minimum", "mod", "module", "molarConcentration?",
   "molarGasConstant", "moleFlowRate?", "momentofInertia?", "momentum?", "monday?", "move", "mul",
   "muonMass", "nameError", "nand", "nand?", "neg", "negative?", "neutronMass", "new", "nor",
   "nor?", "normalize", "not", "not?", "notEqual?", "now", "null", "null?", "numerator", "numeric?",
   "object?", "odd?", "one?", "open", "or", "or?", "outdent", "packageError", "pad", "palette",
   "panic", "parse", "past?", "path", "path?", "pathLabel?", "pathLiteral?", "pause",
   "permeability?", "permissions", "permittivity?", "permutate", "pi", "planckConstant",
   "planckLength", "planckMass", "planckTemperature", "planckTime", "pop", "popup", "positive?",
   "potential?", "pow", "power?", "powerset", "powmod", "prefix?", "prepend", "pressure?", "prime?",
   "print", "prints", "process", "product", "property", "protonMass", "protonMassEnergy",
   "quantity?", "query", "radiation?", "radiationExposure?", "random", "range", "range?",
   "rational?", "read", "receive", "reciprocal", "reducedPlanckConstant", "regex?", "relative",
   "remove", "rename", "render", "repeat", "replace", "request", "resistance?", "resistivity?",
   "return", "reverse", "rotate", "round", "runtimeError", "rydbergConstant", "salary?", "same?",
   "sample", "saturate", "saturday?", "scalar", "script", "sec", "sech", "select", "send", "send?",
   "serve", "set", "set?", "shl", "shr", "shuffle", "sin", "sinh", "size", "skewness", "slice",
   "snap?", "socket?", "solidAngle?", "some?", "sort", "sortable", "sorted?", "specificVolume?",
   "specify", "speed?", "speedOfLight", "spin", "split", "sqrt", "squeeze", "stack", "standalone?",
   "standardGasVolume", "standardPressure", "standardTemperature", "store", "store?", "string?",
   "strip", "sub", "subset?", "substance?", "suffix?", "sum", "sunday?", "superset?", "superuser?",
   "surfaceTension?", "switch", "symbol?", "symbolLiteral?", "symbols", "symlink", "symlink?",
   "syntaxError", "sys", "systemError", "take", "tally", "tan", "tanh", "tau", "tauMass",
   "temperature?", "terminal", "terminate", "thermalConductivity?", "thermalInsulance?",
   "thomsonCrossSection", "throw", "throws?", "thursday?", "time?", "timestamp", "to", "today?",
   "translate", "tritonMass", "true", "true?", "truncate", "try", "tuesday?", "type", "type?",
   "typeError", "uiError", "unclip", "union", "unique", "unit?", "unitless?", "units", "unless",
   "unplug", "unset", "unstack", "until", "unzip", "upper", "upper?", "using", "vacuumPermeability",
   "vacuumPermittivity", "valueError", "values", "var", "variance", "version?", "viscosity?",
   "vmError", "volume", "volume?", "volumetricFlow?", "vonKlitzingConstant", "waveNumber?",
   "webview", "wednesday?", "when", "while", "whitespace?", "window", "with", "word?", "wordwrap",
   "write", "xnor", "xnor?", "xor", "xor?", "zero?", "zip"]

def attributes : List String :=
  ["else", "when", "unless", "do", "while", "until", "step", "from", "to", "by", "as", "with",
   "without", "import", "export", "local", "global", "public", "private", "string", "integer",
   "floating", "logical", "block", "dictionary", "function", "method", "numeric", "literal", "type",
   "char", "word", "attribute", "path", "inline", "action", "any", "nothing", "module", "object",
   "error", "quantity", "unit", "complex", "rational", "version", "date", "binary", "null", "range",
   "color", "database", "socket", "bytecode", "symbol", "label", "attributeLabel", "pathLabel",
   "prefix", "suffix", "contains", "sorted", "unique", "reverse", "upper", "lower", "capitalize",
   "truncate", "pad", "strip", "split", "join", "repeat", "replace", "lines", "words", "dent",
   "indent", "outdent", "escape", "unescape", "in", "at", "every", "some", "all", "first", "last",
   "empty", "single", "sort", "descending", "ascending", "values", "keys", "size", "external",
   "expect", "infix", "postfix", "unary", "variadic", "alias", "pure", "raw", "safe", "regex",
   "verbatim", "template", "print", "silent", "hidden", "once", "times", "infinite", "deep",
   "shallow", "copy", "reference", "mutable", "kebab-case", "snake_case", "camelCase", "PascalCase",
   "UPPER_CASE", "relative", "absolute", "normalize", "expand", "compact", "pretty", "minimal",
   "grayscale", "alpha", "format", "parse", "encode", "decode", "digest", "mail", "http", "https",
   "ftp", "file", "data", "base64", "hex", "json", "yaml", "xml", "html", "csv", "tsv", "sql",
   "markdown", "text", "get", "post", "put", "delete", "patch", "head", "options", "trace", "async",
   "sync", "parallel", "sequential", "lazy", "eager", "cached", "key", "value", "index", "slice",
   "take", "drop", "filter", "map", "fold", "reduce", "scan", "zip", "unzip", "flatten", "chunk",
   "window", "case", "sensitive", "insensitive", "trim", "exact", "fuzzy", "forever", "n", "count",
   "enumerate", "random", "shuffle", "sample", "seed", "min", "max", "sum", "product", "mean",
   "median", "mode", "variance", "deviation"]

def colors : List String :=
  ["red", "green", "blue", "yellow", "cyan", "magenta", "white", "black", "gray", "grey", "orange",
   "purple", "pink", "brown", "lime", "navy", "teal", "aqua", "maroon", "olive", "silver",
   "fuchsia"]

def units : List String :=
  ["m", "mm", "cm", "km", "in", "ft", "yd", "mi", "g", "kg", "mg", "lb", "oz", "ton", "s", "ms",
   "min", "h", "hr", "day", "week", "month", "year", "K", "C", "F", "m2", "cm2", "km2", "ft2",
   "yd2", "mi2", "acre", "hectare", "m3", "cm3", "km3", "L", "mL", "gal", "qt", "pt", "cup",
   "fl_oz", "mps", "kph", "mph", "knot", "N", "kN", "lbf", "Pa", "kPa", "MPa", "bar", "psi", "atm",
   "torr", "J", "kJ", "MJ", "cal", "kcal", "Wh", "kWh", "eV", "W", "kW", "MW", "hp", "rad", "deg",
   "grad", "Hz", "kHz", "MHz", "GHz", "bit", "byte", "KB", "MB", "GB", "TB", "PB", "Kb", "Mb", "Gb",
   "Tb", "Pb", "USD", "EUR", "GBP", "JPY", "CNY"]

def entry (name usage description : String) (params : List (String × String)) (returns : String) :
    String × Signature :=
  (name, ⟨name, usage, description, params.map fun param => ⟨param.1, param.2⟩, returns⟩)

def functions : List (String × Signature) :=
  [entry "return" "return value :any -> :nothing"
     "Returns a value from a function"
     [("value", ":any")] ":nothing",
   entry "if" "if condition :logical action :block -> :any"
     "Executes action if condition is true"
     [("condition", ":logical"), ("action", ":block")] ":any",
   entry "unless" "unless condition :logical action :block -> :any"
     "Executes action if condition is false"
     [("condition", ":logical"), ("action", ":block")] ":any",
   entry "when" "when condition :logical action :block -> :any"
     "Executes action when condition is true (alias for if)"
     [("condition", ":logical"), ("action", ":block")] ":any",
   entry "switch" "switch value :any cases :block -> :any"
     "Performs multi-way conditional branching"
     [("value", ":any"), ("cases", ":block")] ":any",
   entry "case" "case value :any condition :block -> :any"
     "Defines a case in a switch statement"
     [("value", ":any"), ("condition", ":block")] ":any",
   entry "do" "do block :block -> :any"
     "Executes a block and returns its result"
     [("block", ":block")] ":any",
   entry "try" "try block :block -> :any"
     "Executes a block and catches errors"
     [("block", ":block")] ":any",
   entry "break" "break -> :nothing"
     "Exits from a loop"
     [] ":nothing",
   entry "continue" "continue -> :nothing"
     "Skips to next iteration of a loop"
     [] ":nothing",
   entry "loop" "loop collection :block/:range action :block -> :null"
     "Iterates over a collection"
     [("collection", ":block/:range"), ("action", ":block")] ":null",
   entry "while" "while condition :block action :block -> :null"
     "Executes action while condition is true"
     [("condition", ":block"), ("action", ":block")] ":null",
   entry "until" "until condition :block action :block -> :null"
     "Executes action until condition is true"
     [("condition", ":block"), ("action", ":block")] ":null",
   entry "function" "function params :block/:literal body :block -> :function"
     "Creates a function"
     [("params", ":block/:literal"), ("body", ":block")] ":function",
   entry "method" "method params :block body :block -> :method"
     "Creates a method with this context"
     [("params", ":block"), ("body", ":block")] ":method",
   entry "call" "call fn :function args :block -> :any"
     "Calls a function with arguments"
     [("fn", ":function"), ("args", ":block")] ":any",
   entry "print" "print value :any -> :null"
     "Prints a value to stdout with newline"
     [("value", ":any")] ":null",
   entry "prints" "prints value :any -> :null"
     "Prints a value to stdout without newline"
     [("value", ":any")] ":null",
   entry "input" "input prompt :string -> :string"
     "Reads a line from stdin"
     [("prompt", ":string")] ":string",
   entry "read" "read path :string -> :string"
     "Reads contents from a file"
     [("path", ":string")] ":string",
   entry "write" "write path :string content :string -> :null"
     "Writes content to a file"
     [("path", ":string"), ("content", ":string")] ":null",
   entry "to" "to type :type value :any -> :any"
     "Converts a value to a specified type"
     [("type", ":type"), ("value", ":any")] ":any",
   entry "type" "type value :any -> :type"
     "Returns the type of a value"
     [("value", ":any")] ":type",
   entry "define" "define name :literal/:type body :block -> :type"
     "Defines a custom type"
     [("name", ":literal/:type"), ("body", ":block")] ":type",
   entry "is" "is value :any type :type -> :logical"
     "Checks if value is of given type"
     [("value", ":any"), ("type", ":type")] ":logical",
   entry "size" "size value :string/:block -> :integer"
     "Returns the size/length of a collection"
     [("value", ":string/:block")] ":integer",
   entry "upper" "upper str :string -> :string"
     "Converts string to uppercase"
     [("str", ":string")] ":string",
   entry "lower" "lower str :string -> :string"
     "Converts string to lowercase"
     [("str", ":string")] ":string",
   entry "capitalize" "capitalize str :string -> :string"
     "Capitalizes first letter of string"
     [("str", ":string")] ":string",
   entry "split" "split str :string delimiter :string -> :block"
     "Splits string by delimiter"
     [("str", ":string"), ("delimiter", ":string")] ":block",
   entry "join" "join collection :block separator :string -> :string"
     "Joins collection elements with separator"
     [("collection", ":block"), ("separator", ":string")] ":string",
   entry "replace" "replace str :string pattern :string replacement :string -> :string"
     "Replaces pattern with replacement in string"
     [("str", ":string"), ("pattern", ":string"), ("replacement", ":string")] ":string",
   entry "strip" "strip str :string -> :string"
     "Removes leading and trailing whitespace"
     [("str", ":string")] ":string",
   entry "append" "append collection :block value :any -> :block"
     "Appends value to collection"
     [("collection", ":block"), ("value", ":any")] ":block",
   entry "prepend" "prepend collection :block value :any -> :block"
     "Prepends value to collection"
     [("collection", ":block"), ("value", ":any")] ":block",
   entry "first" "first collection :block -> :any"
     "Returns first element of collection"
     [("collection", ":block")] ":any",
   entry "last" "last collection :block -> :any"
     "Returns last element of collection"
     [("collection", ":block")] ":any",
   entry "get" "get collection :block/:dictionary index :integer/:string -> :any"
     "Gets element at index from collection"
     [("collection", ":block/:dictionary"), ("index", ":integer/:string")] ":any",
   entry "set" "set collection :block/:dictionary index :integer/:string value :any -> :null"
     "Sets element at index in collection"
     [("collection", ":block/:dictionary"), ("index", ":integer/:string"), ("value", ":any")] ":null",
   entry "map" "map collection :block action :block -> :block"
     "Maps function over collection"
     [("collection", ":block"), ("action", ":block")] ":block",
   entry "filter" "filter collection :block predicate :block -> :block"
     "Filters collection by predicate"
     [("collection", ":block"), ("predicate", ":block")] ":block",
   entry "fold" "fold collection :block initial :any action :block -> :any"
     "Folds collection with accumulator"
     [("collection", ":block"), ("initial", ":any"), ("action", ":block")] ":any",
   entry "select" "select collection :block predicate :block -> :block"
     "Selects elements matching predicate"
     [("collection", ":block"), ("predicate", ":block")] ":block",
   entry "sort" "sort collection :block -> :block"
     "Sorts collection in ascending order"
     [("collection", ":block")] ":block",
   entry "reverse" "reverse collection :block/:string -> :block/:string"
     "Reverses a collection or string"
     [("collection", ":block/:string")] ":block/:string",
   entry "unique" "unique collection :block -> :block"
     "Returns unique elements from collection"
     [("collection", ":block")] ":block",
   entry "flatten" "flatten collection :block -> :block"
     "Flattens nested collection"
     [("collection", ":block")] ":block",
   entry "empty" "empty collection :block/:string -> :block/:string"
     "Returns an empty collection of same type"
     [("collection", ":block/:string")] ":block/:string",
   entry "take" "take collection :block n :integer -> :block"
     "Takes first n elements from collection"
     [("collection", ":block"), ("n", ":integer")] ":block",
   entry "drop" "drop collection :block n :integer -> :block"
     "Drops first n elements from collection"
     [("collection", ":block"), ("n", ":integer")] ":block",
   entry "slice" "slice collection :block start :integer end :integer -> :block"
     "Returns slice of collection from start to end"
     [("collection", ":block"), ("start", ":integer"), ("end", ":integer")] ":block",
   entry "add" "add a :numeric b :numeric -> :numeric"
     "Adds two numbers"
     [("a", ":numeric"), ("b", ":numeric")] ":numeric",
   entry "sub" "sub a :numeric b :numeric -> :numeric"
     "Subtracts b from a"
     [("a", ":numeric"), ("b", ":numeric")] ":numeric",
   entry "mul" "mul a :numeric b :numeric -> :numeric"
     "Multiplies two numbers"
     [("a", ":numeric"), ("b", ":numeric")] ":numeric",
   entry "div" "div a :numeric b :numeric -> :numeric"
     "Divides a by b"
     [("a", ":numeric"), ("b", ":numeric")] ":numeric",
   entry "mod" "mod a :integer b :integer -> :integer"
     "Returns remainder of a divided by b"
     [("a", ":integer"), ("b", ":integer")] ":integer",
   entry "pow" "pow base :numeric exponent :numeric -> :numeric"
     "Raises base to exponent"
     [("base", ":numeric"), ("exponent", ":numeric")] ":numeric",
   entry "sqrt" "sqrt n :numeric -> :floating"
     "Returns square root of n"
     [("n", ":numeric")] ":floating",
   entry "abs" "abs n :numeric -> :numeric"
     "Returns absolute value of n"
     [("n", ":numeric")] ":numeric",
   entry "neg" "neg n :numeric -> :numeric"
     "Returns negative of n"
     [("n", ":numeric")] ":numeric",
   entry "inc" "inc n :numeric -> :numeric"
     "Increments n by 1"
     [("n", ":numeric")] ":numeric",
   entry "dec" "dec n :numeric -> :numeric"
     "Decrements n by 1"
     [("n", ":numeric")] ":numeric",
   entry "max" "max a :numeric b :numeric -> :numeric"
     "Returns maximum of two numbers"
     [("a", ":numeric"), ("b", ":numeric")] ":numeric",
   entry "min" "min a :numeric b :numeric -> :numeric"
     "Returns minimum of two numbers"
     [("a", ":numeric"), ("b", ":numeric")] ":numeric",
   entry "sum" "sum collection :block -> :numeric"
     "Returns sum of all numbers in collection"
     [("collection", ":block")] ":numeric",
   entry "product" "product collection :block -> :numeric"
     "Returns product of all numbers in collection"
     [("collection", ":block")] ":numeric",
   entry "average" "average collection :block -> :floating"
     "Returns average of numbers in collection"
     [("collection", ":block")] ":floating",
   entry "median" "median collection :block -> :numeric"
     "Returns median of numbers in collection"
     [("collection", ":block")] ":numeric",
   entry "random" "random max :integer -> :integer"
     "Returns random integer from 0 to max-1"
     [("max", ":integer")] ":integer",
   entry "sin" "sin angle :numeric -> :floating"
     "Returns sine of angle (in radians)"
     [("angle", ":numeric")] ":floating",
   entry "cos" "cos angle :numeric -> :floating"
     "Returns cosine of angle (in radians)"
     [("angle", ":numeric")] ":floating",
   entry "tan" "tan angle :numeric -> :floating"
     "Returns tangent of angle (in radians)"
     [("angle", ":numeric")] ":floating",
   entry "and" "and a :logical b :logical -> :logical"
     "Logical AND of two boolean values"
     [("a", ":logical"), ("b", ":logical")] ":logical",
   entry "or" "or a :logical b :logical -> :logical"
     "Logical OR of two boolean values"
     [("a", ":logical"), ("b", ":logical")] ":logical",
   entry "not" "not value :logical -> :logical"
     "Logical NOT of boolean value"
     [("value", ":logical")] ":logical",
   entry "equal?" "equal? a :any b :any -> :logical"
     "Checks if two values are equal"
     [("a", ":any"), ("b", ":any")] ":logical",
   entry "greater?" "greater? a :any b :any -> :logical"
     "Checks if a is greater than b"
     [("a", ":any"), ("b", ":any")] ":logical",
   entry "less?" "less? a :any b :any -> :logical"
     "Checks if a is less than b"
     [("a", ":any"), ("b", ":any")] ":logical",
   entry "keys" "keys dict :dictionary -> :block"
     "Returns all keys from dictionary"
     [("dict", ":dictionary")] ":block",
   entry "values" "values dict :dictionary -> :block"
     "Returns all values from dictionary"
     [("dict", ":dictionary")] ":block",
   entry "has" "has dict :dictionary key :string -> :logical"
     "Checks if dictionary has key"
     [("dict", ":dictionary"), ("key", ":string")] ":logical"]

end ArturoInsight.Catalog.Shipped

def ArturoInsight.Catalog.shipped : ArturoInsight.Catalog where
  types := Shipped.types
  words := Shipped.words
  attributes := Shipped.attributes
  colors := Shipped.colors
  units := Shipped.units
  functions := Shipped.functions
