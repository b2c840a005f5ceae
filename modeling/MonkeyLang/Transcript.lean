/-!
# Transcripts

What a program shows to its user, in two channels: output, and errors beside it.
-/

namespace MonkeyLang

/-- What is shown: output, and errors beside it. -/
structure Transcript where
  out : String
  err : String
  deriving DecidableEq

namespace Transcript

/-- Nothing shown. -/
def empty : Transcript := ⟨"", ""⟩

/-- Output only. -/
def output (text : String) : Transcript := ⟨text, ""⟩

/-- Errors only. -/
def errors (text : String) : Transcript := ⟨"", text⟩

end Transcript

end MonkeyLang
