import Ocfs2Test.Lib.ByteFile
import Ocfs2Test.Lib.Interact

/-!
# fsx: the file under test

The system calls that `fsx-linux.c` makes on its file, the answers each can have,
and the answers of a file that does what POSIX says. The device that is tested
may give any others.
-/

namespace Ocfs2Test.Fsx

open Lib

def pageSize : Nat := 4096

/-- `create` stands for `O_CREAT|O_TRUNC`, and `mmap` has `MAP_SHARED` always. `load` and
`store` are copies out of and into a mapping, by their offset in the file, and
`ignored` is a call whose result is thrown away. -/
inductive Call
  | lseek (offset : Nat)
  | seekEnd
  | read (size : Nat)
  | write (data : List UInt8)
  | ftruncate (size : Nat)
  | fstat
  | fsync
  | mmap (size offset : Nat)
  | load (offset size : Nat)
  | store (offset : Nat) (data : List UInt8)
  | msync
  | munmap
  | close
  | openFile (create : Bool)
  | ignored (call : Call)

/-- An answer is what fsx looks at of it. A flag tells whether a call succeeded; of a seek
to an offset fsx tests nothing else. `fstat` has it beside the `st_size` that is
in the buffer afterwards, and −1 is `none` for the calls that return a count.
A mapping that is not there ends a copy in `SIGBUS`, which is the failure of
`load` and `store`. -/
@[reducible] def Answer : Call → Type
  | .lseek _ | .ftruncate _ | .fsync | .mmap .. | .store .. | .msync | .munmap | .close
  | .openFile _ => Bool
  | .seekEnd => Int
  | .read size => Option { bytes : List UInt8 // bytes.length ≤ size }
  | .write _ => Option Nat
  | .fstat => Bool × Int
  | .load _ size => Option { bytes : List UInt8 // bytes.length = size }
  | .ignored _ => Unit

structure OpenFile where
  data : ByteFile
  pos : Nat

/-- `size` bytes of a mapping, which are zero after the end of the file. -/
def window (f : ByteFile) (offset size : Nat) : List UInt8 :=
  (List.range size).map fun i => f.byte (offset + i)

theorem length_window (f : ByteFile) (offset size : Nat) :
    (window f offset size).length = size := by
  simp [window]

theorem length_pread_le (f : ByteFile) (size offset : Nat) :
    (f.pread size offset).length ≤ size := by
  simp

/-- The pages a file has bytes in end here. -/
def pagesEnd (f : ByteFile) : Nat := (f.size + (pageSize - 1)) / pageSize * pageSize

def posix : Device Call Answer OpenFile
  | f, .lseek offset => (true, { f with pos := offset })
  | f, .seekEnd => (f.data.size, { f with pos := f.data.size })
  | f, .read size =>
    (some ⟨f.data.pread size f.pos, length_pread_le _ _ _⟩,
      { f with pos := f.pos + (f.data.pread size f.pos).length })
  | f, .write data =>
    (some data.length, { data := f.data.pwrite data f.pos, pos := f.pos + data.length })
  | f, .ftruncate size => (true, { f with data := f.data.truncate size })
  | f, .fstat => ((true, f.data.size), f)
  | f, .fsync => (true, f)
  | f, .mmap size offset => (decide (0 < size ∧ offset % pageSize = 0), f)
  | f, .load offset size =>
    (if offset + size ≤ pagesEnd f.data then
      some ⟨window f.data offset size, length_window _ _ _⟩ else none, f)
  | f, .store offset data =>
    (decide (offset + data.length ≤ pagesEnd f.data),
      if offset + data.length ≤ pagesEnd f.data then
        { f with data := (f.data.pwrite data offset).truncate f.data.size } else f)
  | f, .msync => (true, f)
  | f, .munmap => (true, f)
  | f, .close => (true, f)
  | f, .openFile create => (true, { data := if create then .empty else f.data, pos := 0 })
  | f, .ignored call => ((), (posix f call).2)

theorem size_le_pagesEnd (f : ByteFile) : f.size ≤ pagesEnd f := by
  simp only [pagesEnd, pageSize]
  omega

theorem pread_eq_window (f : ByteFile) (h : offset + size ≤ f.size) :
    f.pread size offset = window f offset size := by
  rw [ByteFile.pread, window, Nat.min_eq_left (by omega)]

end Ocfs2Test.Fsx
