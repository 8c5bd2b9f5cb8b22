import CCore.Config.Model

/-!
# Loading, reading and deleting a configuration

What a program does with a configuration: it loads the file, asks for values by key, and
deletes it in the end.  The functions that ask take a format and its arguments.  They
print the key into a buffer of 256 bytes, so what they search for is the front of it
(`keyBuffer`).

## Unwritten fields

The entries live in memory from `cc_realloc`, and a field that no scanner has written is
unspecified.  A function whose course depends on such a field has no result (`none`).  An
`int` field that a scanner has filled by an undefined conversion is another matter: it can
be read, and nothing is known of what is read.
-/

namespace CCore
namespace Config

/-- `cc_cfg_load`, where `file` is what `ccfs_file_open` has returned.  It does not look at
what `parse` returns. -/
def ccCfgLoad (atof : List UInt8 → F64) (fuel : ℕ) (file : Option Stream) :
    Option (Option CcCfg) :=
  match file with
  | none => some none
  | some file => (parse atof fuel emptyCfg file).map fun outcome => some outcome.cfg

/-! ## The strings that are freed -/

/-- The strings of one entry that `cc_cfg_delete` passes to `cc_free`. -/
def freeEntry (entry : CcCfgEntry) : Option (List Duplicate) :=
  entry.kind.bind fun kind =>
    if kind = .str then entry.str.map fun str => str.toList ++ [entry.key]
    else some [entry.key]

/-- `cc_cfg_delete`: the strings that it passes to `cc_free`, in order. -/
def ccCfgDelete (cfg : CcCfg) : Option (List Duplicate) :=
  (cfg.entries.mapM freeEntry).map List.flatten

/-! ## Questions -/

/-- What `vsnprintf(key, sizeof(key), fmt, args)` leaves in `char key[256]`: the last byte is
for the NUL. -/
def keyBuffer (formatted : CString) : List UInt8 := formatted.chars.take 255

/-- `find_entry` -/
def findEntry (cfg : CcCfg) (key : List UInt8) : Option CcCfgEntry :=
  cfg.entries.find? fun entry => key = entry.key.text

/-- `cc_cfg_key_exists` -/
def ccCfgKeyExists (cfg : CcCfg) (formatted : CString) : Bool :=
  (findEntry cfg (keyBuffer formatted)).isSome

/-- `cc_cfg_get_bool`: what it returns, and what it leaves in `*out`. -/
def ccCfgGetBool (cfg : CcCfg) (out : Bool) (formatted : CString) : Option (Bool × Bool) :=
  match findEntry cfg (keyBuffer formatted) with
  | none => some (false, out)
  | some entry =>
    entry.kind.bind fun kind =>
      match kind with
      | .nil => some (true, false)
      | .num => entry.f64.map fun f64 => (true, decide (f64 ≠ .fin 0))
      | .bool => entry.b.map fun b => (true, b)
      | .str => some (false, out)

/-- The getters that answer from one field of the entries of one kind. -/
def getField {α : Type} (kind : Kind) (field : CcCfgEntry → Option α) (cfg : CcCfg) (out : α)
    (formatted : CString) : Option (Bool × α) :=
  match findEntry cfg (keyBuffer formatted) with
  | none => some (false, out)
  | some entry =>
    entry.kind.bind fun k =>
      if k ≠ kind then some (false, out) else (field entry).map fun v => (true, v)

/-- `cc_cfg_get_int`.  An `*out` of which nothing is known is `none`. -/
def ccCfgGetInt : CcCfg → Option ℤ → CString → Option (Bool × Option ℤ) :=
  getField .num fun entry => some entry.i64

/-- `cc_cfg_get_float`, with the conversion of a `double` to a `float`. -/
def ccCfgGetFloat {φ : Type} (toFloat : F64 → φ) : CcCfg → φ → CString → Option (Bool × φ) :=
  getField .num fun entry => entry.f64.map toFloat

/-- `cc_cfg_get_double` -/
def ccCfgGetDouble : CcCfg → F64 → CString → Option (Bool × F64) :=
  getField .num fun entry => entry.f64

/-- `cc_cfg_get_str`.  A `*out` that is `NULL` is `none`. -/
def ccCfgGetStr : CcCfg → Option Duplicate → CString → Option (Bool × Option Duplicate) :=
  getField .str fun entry => entry.str

end Config
end CCore
