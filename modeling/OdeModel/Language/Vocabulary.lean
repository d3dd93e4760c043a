import OdeModel.Language.Form

/-!
# Vocabulary

The words with a fixed meaning: leading words of the statements that may span
several lines, built-in functions and constants, and options.
-/

namespace OdeModel

namespace Vocabulary

/-- The word that ends the statements of a model file. -/
def terminator : Text := "done".toList

/-- The variable that runs over the indices of an array, unless another is chosen. -/
def arrayVariable : Text := ['j']

/-- The leading words of block statements. -/
def blocks : List Text :=
  ["export", "markov", "table", "wiener", "global"].map String.toList

/-- The names of built-in functions and constants. -/
def builtins : List Text :=
  ["sin", "cos", "tan", "atan", "atan2", "sinh", "cosh", "tanh", "exp", "delay", "ln", "log",
    "log10", "t", "pi", "if", "then", "else", "asin", "acos", "heav", "sign", "mod", "flr",
    "ran", "abs", "del_shft", "max", "min", "normal", "besselj", "bessely", "besseli", "erf",
    "erfc", "poisson", "lgamma", "shift", "sum", "int", "not", "sqrt"].map String.toList

/-- The names of options, in their canonical spelling. -/
def options : List Text :=
  ["QUIET", "LOGFILE", "OUTPUT", "MAXSTOR", "SMC", "UMC", "XNC", "YNC", "SEC", "UEC", "SPC",
    "UPC", "COLORMAP", "COLORIZE", "COLORVIA", "COLORLO", "COLORHI", "LT", "NPLOT", "MULTIWIN",
    "SIMPLOT", "XP", "YP", "ZP", "XP2", "YP2", "ZP2", "XP3", "YP3", "ZP3", "XP4", "YP4", "ZP4",
    "XP5", "YP5", "ZP5", "XP6", "YP6", "ZP6", "XP7", "YP7", "ZP7", "XP8", "YP8", "ZP8", "XLO",
    "YLO", "XHI", "YHI", "XLO2", "YLO2", "XHI2", "YHI2", "XLO3", "YLO3", "XHI3", "YHI3", "XLO4",
    "YLO4", "XHI4", "YHI4", "XLO5", "YLO5", "XHI5", "YHI5", "XLO6", "YLO6", "XHI6", "YHI6",
    "XLO7", "YLO7", "XHI7", "YHI7", "XLO8", "YLO8", "XHI8", "YHI8", "XMAX", "XMIN", "YMAX",
    "YMIN", "ZMAX", "ZMIN", "AXES", "PHI", "THETA", "SEED", "TOTAL", "DT", "DTMIN", "DTMAX",
    "NJMP", "NOUT", "T0", "TRANS", "NMESH", "DFGRID", "METH", "BANDUP", "BANDLO", "VMAXPTS",
    "JAC_EPS", "NEWT_TOL", "NEWT_ITER", "ATOLER", "TOLER", "BOUND", "DELAY", "AUTOEVAL",
    "POIMAP", "POIVAR", "POIPLN", "POISGN", "POISTOP", "RANGE", "RANGEOVER", "RANGESTEP",
    "RANGELOW", "RANGEHIGH", "RANGERESET", "RANGEOLDIC", "TOR_PER", "FOLD", "NTST", "NMAX",
    "NPR", "DSMIN", "DSMAX", "DS", "EPSS", "EPSL", "EPSU", "PARMIN", "PARMAX", "NORMMIN",
    "NORMMAX", "AUTOXMIN", "AUTOXMAX", "AUTOYMIN", "AUTOYMAX", "AUTOVAR", "BELL"].map
    String.toList

/-- A word that marks a statement or begins a block. -/
def isKeyword (word : Text) : Bool :=
  (Form.marked.map Form.mark).contains word || blocks.contains word

/-- The form whose mark is the given word. -/
def leadingForm? (word : Text) : Option Form := Form.marked.find? fun form => form.mark == word

/-- The name of a built-in function or constant. -/
def isBuiltin (name : Text) : Bool := builtins.contains name

/-- The canonical spelling of an option; upper and lower case do not matter. -/
def option? (name : Text) : Option Text :=
  options.find? fun option => option.map Char.toLower == name.map Char.toLower

end Vocabulary

end OdeModel
