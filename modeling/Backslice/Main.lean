import Backslice.CommandLine

/-!
# The program

Prints what a command leaves behind and ends with its exit code. The entry point
stands outside the library, so that other programs can import the commands and
have an entry point of their own.
-/

open Backslice.CommandLine

def main (args : List String) : IO UInt32 := do
  let outcome := run args
  match outcome with
  | .misuse => IO.eprintln "usage: backslice [-v] list|slice|useless|deps PROGRAM [OPTIONS]"
  | .finished lines failure =>
      for line in lines do
        IO.println line
      if let some e := failure then
        IO.eprintln ("Error: " ++ e.message)
  return outcome.exitCode.toUInt32
