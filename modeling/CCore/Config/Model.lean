import CCore.Base

/-!
# The configuration parser

`cfg.c` reads a file line by line into one growing buffer, cuts each line at its
first colon into a key and a value, and files the value under the key in an array of
entries.

## The buffer

`read_line` writes into a buffer that it doubles when there is no room for one more
character and the NUL behind it.  A write outside the buffer has no result (`none`),
and a byte that `cc_realloc` has added is unspecified until it is written (`none` in
the list).  The parser then works on the C string in the buffer.  It cuts the string
in place, by writing a NUL over the colon and over a closing quote; what it reads
afterwards is always behind the cut, so a pointer into the line is modelled by the
text from there to the end of the string.

## The entries

An entry is a slot of an array that `cc_realloc` provides, so all of its fields but
the key are unspecified until a scanner has written them.  A scanner that fails has
written nothing.

`string_duplicate` is the only function here that allocates strings, and nothing
here frees one, so `strings` lists the live ones in the order of their allocation,
and a string is known by its place in that list.

## What is outside

`atof` is a parameter.  The stream is a list of bytes, at whose end `fgetc` returns
`EOF` for one of two reasons: the end of the file, which `feof` then reports, or an
error that persists, which it does not.  A `char` above 127 is negative where `char`
is signed; it is neither a space nor a digit in the C locale.
-/

namespace CCore
namespace Config

/-! ## Characters -/

/-- `isspace`, in the C locale -/
def isSpace (c : UInt8) : Bool := (9 ≤ c && c ≤ 13) || c == 32

/-- `isdigit` -/
def isDigit (c : UInt8) : Bool := 48 ≤ c && c ≤ 57

/-- The line feed, `\n`. -/
def newline : UInt8 := 10
/-- The carriage return, `\r`. -/
def carriageReturn : UInt8 := 13
/-- `"` -/
def doubleQuote : UInt8 := 34
/-- `#` -/
def hash : UInt8 := 35
/-- `'` -/
def singleQuote : UInt8 := 39
/-- `+` -/
def plus : UInt8 := 43
/-- `-` -/
def minus : UInt8 := 45
/-- `.` -/
def dot : UInt8 := 46
/-- `/` -/
def slash : UInt8 := 47
/-- `:` -/
def colon : UInt8 := 58

/-- `"true"` -/
def trueText : List UInt8 := ['t', 'r', 'u', 'e'].map Char.toUInt8
/-- `"false"` -/
def falseText : List UInt8 := ['f', 'a', 'l', 's', 'e'].map Char.toUInt8

/-! ## Reading lines -/

/-- A `FILE *`: the bytes that `fgetc` has not returned yet, whether `feof` holds, and
whether an error waits behind the bytes instead of the end of the file. -/
structure Stream where
  rest : List UInt8
  eof : Bool
  failing : Bool
  deriving DecidableEq

/-- `*line`, of which `*capacity` is the length.  A byte that was never written is
`none`. -/
abbrev LineBuffer := List (Option UInt8)

namespace LineBuffer

/-- `buffer[i] = c` -/
def write (buffer : LineBuffer) (i : ℕ) (c : UInt8) : Option LineBuffer :=
  if i < buffer.length then some (buffer.set i (some c)) else none

/-- The doubling of the capacity in `read_line`. -/
def grow (buffer : LineBuffer) : LineBuffer :=
  let capacity := if buffer.length ≠ 0 then buffer.length * 2 else 128
  buffer ++ List.replicate (capacity - buffer.length) none

/-- The first `size` bytes. -/
def stored (buffer : LineBuffer) (size : ℕ) : Option (List UInt8) :=
  (buffer.take size).mapM id

/-- The C string that begins at the start of the buffer. -/
def cString : LineBuffer → Option (List UInt8)
  | [] => none
  | none :: _ => none
  | some c :: buffer => if c = 0 then some [] else (cString buffer).map (c :: ·)

end LineBuffer

/-- The loop of `read_line`, with `size` characters in the buffer. -/
def readLineLoop (failing : Bool) :
    List UInt8 → ℕ → LineBuffer → Option (ℕ × LineBuffer × Stream)
  | [], size, line => some (size, line, ⟨[], !failing, failing⟩)
  | c :: rest, size, line =>
    if size = 0 ∧ isSpace c then readLineLoop failing rest size line
    else if c = carriageReturn then readLineLoop failing rest size line
    else if c = newline then some (size, line, ⟨rest, false, failing⟩)
    else
      let line := if line.length < size + 2 then line.grow else line
      (line.write size c).bind fun line =>
        (line.write (size + 1) 0).bind fun line =>
          readLineLoop failing rest (size + 1) line

/-- `read_line`: the number of characters it has stored, the buffer, and the stream
behind them. -/
def readLine (f : Stream) (line : LineBuffer) : Option (ℕ × LineBuffer × Stream) :=
  readLineLoop f.failing f.rest 0 line

/-- `line_is_comment`, on the characters that it is given. -/
def lineIsComment : List UInt8 → Bool
  | [] => true
  | [c] => c = hash
  | c :: d :: _ => c = hash || (c = slash && d = slash)

/-- `trim` -/
def trim (str : List UInt8) : List UInt8 := str.dropWhile isSpace

/-! ## Entries -/

/-- `kind` -/
inductive Kind where
  | nil
  | str
  | num
  | bool
  deriving DecidableEq

/-- A string that `string_duplicate` has returned. -/
structure Duplicate where
  id : ℕ
  text : List UInt8
  deriving DecidableEq

/-- `cc_cfg_entry_t`.  A field that was never written is `none`; so is an `i64` whose
conversion was undefined.  A `str` that was written may be `NULL`. -/
structure CcCfgEntry where
  key : Duplicate
  kind : Option Kind
  str : Option (Option Duplicate)
  f64 : Option F64
  i64 : Option ℤ
  b : Option Bool
  deriving DecidableEq

/-- `cc_cfg_t`.  The entries are the first `count` slots of the array, and `strings` are
the live strings. -/
structure CcCfg where
  capacity : ℕ
  entries : List CcCfgEntry
  strings : List (List UInt8)
  deriving DecidableEq

/-- What the parser reports. -/
inductive CfgError where
  | missingNumber (key : List UInt8)
  | missingClosingQuote (key : List UInt8)
  | missingValue (key : List UInt8)
  | notAValidValue (value key : List UInt8)
  | missingColon
  | additionalText (key : List UInt8)
  deriving DecidableEq

/-- The format strings of the reports. -/
def CfgError.format : CfgError → String
  | .missingNumber _ => "invalid configuration: missing number for key `%s`"
  | .missingClosingQuote _ => "invalid configuration: missing closing quote for key `%s`"
  | .missingValue _ => "invalid configuration: missing value for key `%s`"
  | .notAValidValue _ _ => "invalid configuration: `%s` is not a valid value for key `%s`"
  | .missingColon => "invalid configuration file: missing ':'"
  | .additionalText _ => "invalid configuration file: additional text found for key `%s`"

namespace CcCfg

/-- `string_duplicate(text)` -/
def stringDuplicate (cfg : CcCfg) (text : List UInt8) : Duplicate × CcCfg :=
  (⟨cfg.strings.length, text⟩, { cfg with strings := cfg.strings ++ [text] })

/-- `entry->key` of the entry at an index. -/
def keyAt (cfg : CcCfg) (i : ℕ) : List UInt8 :=
  match cfg.entries[i]? with
  | some entry => entry.key.text
  | none => []

/-- The configuration with another entry at an index. -/
def modifyEntry (cfg : CcCfg) (i : ℕ) (f : CcCfgEntry → CcCfgEntry) : CcCfg :=
  { cfg with entries := cfg.entries.modify i f }

end CcCfg

/-- `ensure` -/
def ensure (cfg : CcCfg) : CcCfg :=
  if cfg.entries.length + 1 < cfg.capacity then cfg
  else { cfg with capacity := if cfg.capacity ≠ 0 then cfg.capacity * 2 else 32 }

/-- `find_entry_or_add`: the configuration and the index of the entry.  A new entry has
a key and nothing else. -/
def findEntryOrAdd (cfg : CcCfg) (key : List UInt8) : Option (CcCfg × ℕ) :=
  match cfg.entries.findIdx? fun entry => key = entry.key.text with
  | some i => some (cfg, i)
  | none =>
    let cfg := ensure cfg
    if cfg.entries.length < cfg.capacity then
      let (key, cfg) := cfg.stringDuplicate key
      some ({ cfg with entries := cfg.entries ++ [⟨key, none, none, none, none, none⟩] },
        cfg.entries.length)
    else none

/-! ## The scanners -/

/-- `if(*src == '-' || *src == '+') src += 1;` -/
def skipSign : List UInt8 → List UInt8
  | [] => []
  | c :: src => if c = minus ∨ c = plus then src else c :: src

/-- `isdigit(*src) || *src == '.'` -/
def startsNumber : List UInt8 → Bool
  | [] => false
  | c :: _ => isDigit c || c = dot

/-- The digits of `parse_number`, and the dot with the digits behind it. -/
def skipDigits (src : List UInt8) : List UInt8 :=
  match src.dropWhile isDigit with
  | [] => []
  | c :: src => if c = dot then src.dropWhile isDigit else c :: src

/-- `parse_number`.  A scanner gets the index of the entry, and returns what is left of
the line. -/
def parseNumber (atof : List UInt8 → F64) (cfg : CcCfg) (i : ℕ) (value : List UInt8) :
    Except (Option CfgError) (List UInt8 × CcCfg) :=
  let src := skipSign value
  if startsNumber src then
    let f64 := atof value
    .ok (skipDigits src, cfg.modifyEntry i fun entry =>
      { entry with
        kind := some .num
        f64 := some f64
        i64 := f64.toInt
        b := f64.toInt.map (· ≠ 0)
        str := some none })
  else .error (some (.missingNumber (cfg.keyAt i)))

/-- `parse_string`, at a text that begins with `delim`. -/
def parseString (cfg : CcCfg) (i : ℕ) (value : List UInt8) (delim : UInt8) :
    Except (Option CfgError) (List UInt8 × CcCfg) :=
  let start := value.tail
  match start.dropWhile (· ≠ delim) with
  | [] => .error (some (.missingClosingQuote (cfg.keyAt i)))
  | _ :: src =>
    let (str, cfg) := cfg.stringDuplicate (start.takeWhile (· ≠ delim))
    .ok (src, cfg.modifyEntry i fun entry =>
      { entry with
        kind := some .str
        f64 := some (.fin 0)
        i64 := some 0
        b := some true
        str := some (some str) })

/-- `parse_bool`.  It reports nothing. -/
def parseBool (cfg : CcCfg) (i : ℕ) (value : List UInt8) :
    Except (Option CfgError) (List UInt8 × CcCfg) :=
  if trueText.isPrefixOf value then
    .ok (value.drop 4, cfg.modifyEntry i fun entry =>
      { entry with
        kind := some .bool
        str := some none
        i64 := some 1
        f64 := some (.fin 1)
        b := some true })
  else if falseText.isPrefixOf value then
    .ok (value.drop 5, cfg.modifyEntry i fun entry =>
      { entry with
        kind := some .bool
        str := some none
        i64 := some 0
        f64 := some (.fin 0)
        b := some false })
  else .error none

/-- `parse_value` -/
def parseValue (atof : List UInt8 → F64) (cfg : CcCfg) (i : ℕ) (value : List UInt8) :
    Except (Option CfgError) (List UInt8 × CcCfg) :=
  match value with
  | [] => .error (some (.missingValue (cfg.keyAt i)))
  | c :: _ =>
    if c = dot ∨ c = plus ∨ c = minus ∨ isDigit c then parseNumber atof cfg i value
    else if c = 't'.toUInt8 ∨ c = 'f'.toUInt8 then parseBool cfg i value
    else if c = singleQuote ∨ c = doubleQuote then parseString cfg i value c
    else .error (some (.notAValidValue value (cfg.keyAt i)))

/-! ## The parser -/

/-- What `parse` returns, with the configuration it has filled and what it has
reported. -/
structure Outcome where
  success : Bool
  cfg : CcCfg
  errors : List CfgError
  deriving DecidableEq

/-- The loop body of `parse`, from the search for the colon on. -/
def parseEntry (atof : List UInt8 → F64) (cfg : CcCfg) (line : List UInt8) : Option Outcome :=
  match line.dropWhile (· ≠ colon) with
  | [] => some ⟨false, cfg, [.missingColon]⟩
  | _ :: after =>
    let key := line.takeWhile (· ≠ colon)
    let value := trim after
    (findEntryOrAdd cfg key).map fun (cfg, i) =>
      match parseValue atof cfg i value with
      | .error error => ⟨false, cfg, error.toList⟩
      | .ok (value, cfg) =>
        let value := trim value
        if value ≠ [] ∧ ¬lineIsComment value then ⟨false, cfg, [.additionalText key]⟩
        else ⟨true, cfg, []⟩

/-- The loop of `parse`. -/
def parseLoop (atof : List UInt8 → F64) :
    ℕ → Stream → LineBuffer → CcCfg → Option Outcome
  | 0, _, _, _ => none
  | fuel + 1, f, line, cfg =>
    if f.eof then some ⟨true, cfg, []⟩
    else
      (readLine f line).bind fun (size, line, f) =>
        if size = 0 then parseLoop atof fuel f line cfg
        else
          (line.stored size).bind fun chars =>
            if lineIsComment chars then parseLoop atof fuel f line cfg
            else
              line.cString.bind fun str =>
                (parseEntry atof cfg str).bind fun outcome =>
                  if outcome.success then parseLoop atof fuel f line outcome.cfg
                  else some outcome

/-- `parse`: it begins with no buffer.  The fuel bounds the turns of its loop. -/
def parse (atof : List UInt8 → F64) (fuel : ℕ) (cfg : CcCfg) (f : Stream) : Option Outcome :=
  parseLoop atof fuel f [] cfg

/-- The configuration that `cc_cfg_load` begins with. -/
def emptyCfg : CcCfg := ⟨0, [], []⟩

end Config
end CCore
