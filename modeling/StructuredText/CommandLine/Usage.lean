import StructuredText.Text.Quoted

/-!
# Usage

The texts that tell how the program is used, and what is told about a wrong command line.
-/

namespace StructuredText.CommandLine

/-- The program, or its command that formats. -/
inductive Scope where
  | program
  | format
deriving Repr, DecidableEq

namespace Scope

def name : Scope → String
  | .program => "stfmt"
  | .format => "stfmt fmt"

def usage : Scope → String
  | .program => "usage: stfmt [-h] [--version] \x7bfmt\x7d ...\n"
  | .format =>
      "usage: stfmt fmt [-h] [--mode \x7bcanonical,identity\x7d] [--style STYLE] [--check]\n" ++
      "                 [--in-place] [--vocabulary path]\n" ++
      "                 script\n"

def help : Scope → String
  | .program =>
      usage .program ++
      "\nStructured Text formatter\n" ++
      "\npositional arguments:\n" ++
      "  \x7bfmt\x7d\n" ++
      "    fmt       Format a Structured Text (.st) file\n" ++
      "\noptions:\n" ++
      "  -h, --help  show this help message and exit\n" ++
      "  --version   show program's version number and exit\n"
  | .format =>
      usage .format ++
      "\npositional arguments:\n" ++
      "  script                Path to the source file or directory\n" ++
      "\noptions:\n" ++
      "  -h, --help            show this help message and exit\n" ++
      "  --mode \x7bcanonical,identity\x7d\n" ++
      "                        Formatting mode\n" ++
      "  --style STYLE         Formatting style version\n" ++
      "  --check               Check if formatting is needed\n" ++
      "  --in-place            Rewrite the file in place\n" ++
      "  --vocabulary path     JSON file with extra\n" ++
      "                        functions/keywords/types/block_names\n"

end Scope

def version : String :=
  "stfmt 0.1.0\n"

inductive Problem where
  | ambiguous (argument : String) (spellings : List String)
  | ignoredValue (label value : String)
  | noValue (label : String)
  | badChoice (label value : String) (choices : List String)
  | required (label : String)
  | unrecognized (arguments : List String)
deriving Repr, DecidableEq

def Problem.message : Problem → String
  | .ambiguous argument spellings =>
      "ambiguous option: " ++ argument ++ " could match " ++ ", ".intercalate spellings
  | .ignoredValue label value =>
      "argument " ++ label ++ ": ignored explicit argument " ++ quotedString value
  | .noValue label => "argument " ++ label ++ ": expected one argument"
  | .badChoice label value choices =>
      "argument " ++ label ++ ": invalid choice: " ++ quotedString value ++ " (choose from " ++
        ", ".intercalate (choices.map quotedString) ++ ")"
  | .required label => "the following arguments are required: " ++ label
  | .unrecognized arguments => "unrecognized arguments: " ++ " ".intercalate arguments

/-- What is wrong with a command line, and who noticed. -/
structure UsageError where
  scope : Scope
  problem : Problem
deriving Repr, DecidableEq

def UsageError.message (error : UsageError) : String :=
  error.scope.name ++ ": error: " ++ error.problem.message

end StructuredText.CommandLine
