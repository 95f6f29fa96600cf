import Kndb.Bytes

/-!
# `IOHandler`

The blocks of a file, by the POSIX calls that the code makes.  Sizes and offsets are computed in 32
bits; `ftruncate` may fail, the other calls do not.
-/

namespace Kndb

open Imp.Prog

/-- What a pointer to the bytes of a block points to. -/
abbrev Buffer := { b : Block // b.length = PG_SZ }

/-- `m_blocks`, and the contents of the file. -/
structure IOHandler where
  blocks : ℕ
  file : List Byte
deriving DecidableEq, Repr

/-- What `ftruncate` makes of a file. -/
def truncate (size : ℕ) (file : List Byte) : List Byte :=
  file.take size ++ List.replicate (size - file.length) 0

/-- What `pwrite` makes of a file; a gap before the offset is filled with zeros. -/
def pwrite (arr : List Byte) (offset : ℕ) (file : List Byte) : List Byte :=
  (file ++ List.replicate (offset - file.length) 0).take offset ++ arr ++ file.drop (offset + arr.length)

/-- What `pread` copies. -/
def pread (n offset : ℕ) (file : List Byte) : List Byte := (file.drop offset).take n

namespace IOHandler

def new (file : List Byte) : IOHandler := { blocks := file.length / PG_SZ % 2 ^ 32, file }

/-- `ftruncate`, and the exception when it fails. -/
def ftruncate (fails : Bool) (size : ℕ) : Code IOHandler Unit :=
  if fails then raise (.runtimeError "Failed to increase file size")
  else change fun io => { io with file := truncate size io.file }

def createNewBlock (fails : Bool) : Code IOHandler ℕ := do
  change fun io => { io with blocks := (io.blocks + 1) % 2 ^ 32 }
  let new_sz ← gets fun io => io.blocks * PG_SZ % 2 ^ 32
  ftruncate fails new_sz
  gets fun io => (io.blocks + 2 ^ 32 - 1) % 2 ^ 32

def createMultipleBlocks (fails : Bool) (numBlocks : ℤ) : Code IOHandler ℕ := do
  require (0 < numBlocks) "Cannot allocate non-positive number of blocks"
  let n := numBlocks.toNat % 2 ^ 32
  let new_sz ← gets fun io => (io.blocks + n) % 2 ^ 32 * PG_SZ % 2 ^ 32
  ftruncate fails new_sz
  change fun io => { io with blocks := (io.blocks + n) % 2 ^ 32 }
  gets fun io => (io.blocks + 2 ^ 32 - n) % 2 ^ 32

def writeBlock (arr : Buffer) (BlockNo : ℕ) : Code IOHandler Unit := do
  if (← gets blocks) ≤ BlockNo then
    raise (.runtimeError "BlockNo out of bounds")
  else
    change fun io => { io with file := pwrite arr.1 (BlockNo * PG_SZ % 2 ^ 32) io.file }

/-- Of the buffer that is read to, the bytes that `pread` does not reach stay. -/
def readBlock (arr : Buffer) (BlockNo : ℕ) : Code IOHandler Block := do
  if (← gets blocks) ≤ BlockNo then
    raise (.runtimeError "BlockNo out of bounds")
  else
    let bytes ← gets fun io => pread PG_SZ (BlockNo * PG_SZ % 2 ^ 32) io.file
    return bytes ++ arr.1.drop bytes.length

inductive Call where
  | createNewBlock
  | createMultipleBlocks (numBlocks : ℤ)
  | writeBlock (arr : Buffer) (BlockNo : ℕ)
  | readBlock (arr : Buffer) (BlockNo : ℕ)

inductive Answer where
  | unit
  | block (BlockNo : ℕ)
  | bytes (b : Block)
deriving DecidableEq, Repr

/-- One call; `fails` tells whether `ftruncate` fails if it is called. -/
def call (fails : Bool) : Call → Code IOHandler Answer
  | .createNewBlock => do return .block (← IOHandler.createNewBlock fails)
  | .createMultipleBlocks numBlocks => do return .block (← IOHandler.createMultipleBlocks fails numBlocks)
  | .writeBlock arr BlockNo => do
    IOHandler.writeBlock arr BlockNo
    return .unit
  | .readBlock arr BlockNo => do return .bytes (← IOHandler.readBlock arr BlockNo)

end IOHandler
end Kndb
