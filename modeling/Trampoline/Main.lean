/-
Trampoline/Main.lean

The command line as a program: carries out what `CommandLine.run` decides.
-/
import Trampoline.CommandLine

namespace Trampoline.CommandLine

/-- The bytes of what is written. -/
def Content.toByteArray : Content → ByteArray
  | bytes code => ⟨code.toArray⟩
  | text s => s.toUTF8

/-- The cause behind a failed creation of a file. -/
def CreateError.ofError : IO.Error → CreateError
  | .noFileOrDirectory .. => .notFound
  | .inappropriateType .. => .isDirectory
  | error => .other error.toString

/-- Carries out an action and gives the exit code. -/
def Action.perform : Action → IO UInt32
  | write none content => do
      let out ← IO.getStdout
      out.write content.toByteArray
      out.flush
      return 0
  | write (some path) content => do
      try
        IO.FS.writeBinFile path content.toByteArray
        return 0
      catch error =>
        IO.eprint (createFailure path (.ofError error))
        return 1
  | disassemble _ => do
      -- No disassembler is ever started, so this is what a missing one leads to.
      IO.eprintln s!"failed to run objdump: {CreateError.notFound.text}"
      return 0
  | help => do
      IO.print usage
      return 0
  | fail message => do
      IO.eprint message
      return 1
  | reject error => do
      IO.eprintln error.message
      return 2

end Trampoline.CommandLine

def main (args : List String) : IO UInt32 :=
  (Trampoline.CommandLine.run Trampoline.Demo.placeholder args).perform
