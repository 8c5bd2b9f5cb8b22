import CCore.Base
import CCore.Library.Buffers

/-!
# Paths

`filesystem.c` joins path components in a buffer of the caller, and cuts directories off the end
of a path in place.  Both functions go through memory with indices and pointers of their own, so
both are modelled with the bytes they read and write: an access outside the buffer, or outside the
string with its NUL, has no result (`none`).

## Joining

The components of `ccfs_path_concat` are a list of strings; in the source a `NULL` ends it.  The
indices are natural numbers: a component and the buffer lie beside each other in one address space,
so the sums of the fit test are no larger than a `size_t`.

## Trimming

`ccfs_path_rtrim_i` puts the length of the path into an `int`.  A length that is no `int` keeps its
low thirty-two bits.  The pointer that goes backwards is compared with the start of the string by
`!=`, so a pointer that begins below the start never meets it; it reads what lies there at once.
-/

namespace CCore
namespace Filesystem

open Buffers

/-- `\` -/
def backslash : UInt8 := 92
/-- `/` -/
def slash : UInt8 := 47

/-- Where the library has been built. -/
inductive Platform where
  | posix
  | win32
  deriving DecidableEq

/-- `CCFS_PATH_SEP` -/
def pathSep : Platform → UInt8
  | .posix => slash
  | .win32 => backslash

/-- `is_path_sep` -/
def isPathSep (c : UInt8) : Bool := c == backslash || c == slash

/-! ## Joining -/

/-- The loop of `path_component_length`. -/
def pathComponentLengthFrom (comp : List UInt8) : ℕ → ℕ
  | 0 => 0
  | length + 1 =>
    if comp[length]?.any isPathSep then pathComponentLengthFrom comp length else length + 1

/-- `path_component_length` -/
def pathComponentLength (comp : CString) : ℕ :=
  pathComponentLengthFrom comp.chars comp.chars.length

/-- `pathcpy`, to the index `dest` of the buffer.  Where the source has come to its NUL, zeros are
written. -/
def pathcpy (p : Platform) : ℕ → List UInt8 → ℕ → List UInt8 → Option (List UInt8)
  | 0, _, _, out => some out
  | n + 1, [], dest, out => (write out dest 0).bind (pathcpy p n [] (dest + 1))
  | n + 1, c :: src, dest, out =>
    (write out dest (if isPathSep c then pathSep p else c)).bind (pathcpy p n src (dest + 1))

/-- The loop of `ccfs_path_concat`, with the components that are left. -/
def concatLoop (p : Platform) (size : ℕ) :
    List CString → Bool → ℕ → List UInt8 → Option (ℕ × List UInt8)
  | [], _, head, out => some (head, out)
  | comp :: components, isFirst, head, out =>
    let compLength := pathComponentLength comp
    if head + compLength + 1 ≥ size then some (head, out)
    else if isFirst then
      (pathcpy p compLength comp.chars head out).bind fun out =>
        concatLoop p size components false (head + compLength) out
    else
      (write out head (pathSep p)).bind fun out =>
        let head := head + 1
        (pathcpy p compLength comp.chars head out).bind fun out =>
          concatLoop p size components false (head + compLength) out

/-- `ccfs_path_concat`: what it returns, and the buffer.  `size` is the size of the buffer. -/
def ccfsPathConcat (p : Platform) (out : List UInt8) (components : List CString) :
    Option (ℕ × List UInt8) :=
  (concatLoop p out.length components true 0 out).bind fun (head, out) =>
    (write out head 0).map fun out => (head, out)

/-! ## Trimming -/

/-- The bytes of a string, with the NUL that ends it. -/
def bytes (path : CString) : List UInt8 := path.chars ++ [0]

/-- `int length = strlen(path);` -/
def intLength (path : CString) : ℤ := (Int32.ofNat path.chars.length).toInt

/-- The loop of `ccfs_path_rtrim_i`, with `head` at an index of the path: where it stops. -/
def rtrimLoop (path : CString) (numDirs : ℤ) : ℤ → ℕ → Option ℕ
  | _, 0 => some 0
  | dirs, head + 1 =>
    if dirs < numDirs + 1 then
      (bytes path)[head + 1]?.bind fun c =>
        rtrimLoop path numDirs (if isPathSep c then dirs + 1 else dirs) head
    else some (head + 1)

/-- `ccfs_path_rtrim_i`: the bytes of the string behind it. -/
def ccfsPathRtrimI (path : CString) (numDirs : ℤ) : Option (List UInt8) :=
  match intLength path - 1 with
  | .ofNat head =>
    (rtrimLoop path numDirs 0 head).bind fun head => write (bytes path) (head + 2) 0
  | .negSucc below =>
    -- `head` is `below + 1` bytes below the string
    if 0 < numDirs + 1 then none
    else if below ≤ 1 then write (bytes path) (1 - below) 0
    else none

end Filesystem
end CCore
