import Masonry.Report

/-!
# The command line

Runs `Report.run` on the real files and streams.
-/

namespace Masonry

/-- The bytes of a file, or that there is no such file. -/
def readBytes (path : String) : IO (Except FileFault (List UInt8)) := do
  try
    return .ok (← IO.FS.readBinFile path).toList
  catch _ => return .error .noSuchFile

/-- Writes a file, unless there is no place for it. -/
def writeBytes (path : String) (bytes : List UInt8) : IO (Option FileFault) := do
  try
    IO.FS.writeBinFile path (ByteArray.mk bytes.toArray)
    return none
  catch _ => return some .noSuchFile

instance : Console IO where
  readFile := readBytes
  writeFile := writeBytes
  printLine line := IO.println line
  printError line := IO.eprintln line

end Masonry

def main (args : List String) : IO UInt32 := do
  let ok ← Masonry.Report.run args
  return if ok then 0 else 1
