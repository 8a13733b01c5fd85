import Advos.Schemes.Word
import Advos.Slab.Create

/-! Formatted output (`strfmt.c`).

    `kvsnprintf` goes through the format once. An ordinary character is written, a conversion is parsed and its
    argument rendered; each character goes through the same test, which keeps the last byte of the buffer free
    and counts on when there is no room:

        if ( (size_t)pos + 1 < size ) { str[pos] = c; }
        pos++;

    A conversion gets the rest of the buffer, `tmpstr + pos` and `size - pos`, or `NULL` and 0 when the buffer is
    full. The three number conversions are copies of one another but for their digits:

        padding (blanks or zeros) │ zeros up to the precision │ digits, from the far end of a scratch buffer

    Arguments are 64-bit words; `mem` has the strings that pointers among them lead to. Writing outside of a
    buffer, or through `NULL`, has no result. -/

namespace Advos.Strfmt
open Word
open Slab (CString)

/-- A character as a byte. -/
def ch (c : Char) : UInt8 := c.toUInt8

/-! ### Format chunks -/

/-- `STRFMT_MOD_NONE`, `_LONG`, `_LONGLONG`. -/
inductive Modifier
  | none | long | longlong
deriving DecidableEq, Repr

/-- `struct strfmt_format`. -/
structure Format where
  zero : Bool
  pad : ℤ
  prec : ℤ
  mod : Modifier
  spec : UInt8
deriving DecidableEq, Repr

/-- Skip the character `c`, if it is next. -/
def skip (c : Char) : List UInt8 → Bool × List UInt8
  | [] => (false, [])
  | x :: s => if x = ch c then (true, s) else (false, x :: s)

def isDigit (c : UInt8) : Bool := ch '0' ≤ c ∧ c ≤ ch '9'

/-- The loop that reads a decimal `int`. -/
def parseNumber (n : ℤ) : List UInt8 → ℤ × List UInt8
  | [] => (n, [])
  | c :: s => if isDigit c then parseNumber (wrap32 (wrap32 (n * 10) + (c.toNat - (ch '0').toNat))) s else (n, c :: s)

/-- The padding length starts with a digit other than 0. -/
def parsePad : List UInt8 → ℤ × List UInt8
  | [] => (0, [])
  | c :: s => if ch '1' ≤ c ∧ c ≤ ch '9' then parseNumber 0 (c :: s) else (0, c :: s)

def parsePrec (s : List UInt8) : ℤ × List UInt8 :=
  if (skip '.' s).1 then parseNumber 0 (skip '.' s).2 else (0, s)

def parseMod (s : List UInt8) : Modifier × List UInt8 :=
  if (skip 'l' s).1 then
    if (skip 'l' (skip 'l' s).2).1 then (.longlong, (skip 'l' (skip 'l' s).2).2) else (.long, (skip 'l' s).2)
  else (.none, s)

/-- `_parse_format`: the chunk and the rest of the format; nothing stands for -1. -/
def parseFormat (s : List UInt8) : Option (Format × List UInt8) :=
  if (skip '%' s).1 then
    let zero := skip '0' (skip '%' s).2
    let pad := parsePad zero.2
    let prec := parsePrec pad.2
    let mod := parseMod prec.2
    some (⟨zero.1, pad.1, prec.1, mod.1, mod.2.headD 0⟩, mod.2.tail)
  else none

/-! ### Writing -/

/-- `buf[i] = c`. -/
def store (buf : List UInt8) (i : ℕ) (c : UInt8) : Option (List UInt8) :=
  if i < buf.length then some (buf.set i c) else none

/-- The test and the write for one character at `str`; the state is `pos` and the memory. -/
def put (str : Option ℕ) (size : ℕ) (c : UInt8) (st : ℕ × List UInt8) : Option (ℕ × List UInt8) :=
  if st.1 + 1 < size then do
    let base ← str
    let buf ← store st.2 (base + st.1) c
    some (st.1 + 1, buf)
  else some (st.1 + 1, st.2)

/-- A loop that puts one character after the other. -/
def emit (str : Option ℕ) (size : ℕ) : List UInt8 → ℕ × List UInt8 → Option (ℕ × List UInt8)
  | [], st => some st
  | c :: cs, st => do
    let st ← put str size c st
    emit str size cs st

/-! ### Conversions -/

/-- `va_arg`, as a word. -/
def nextArg (args : List ℕ) : ℕ := args.headD 0

/-- The signed argument the modifier selects. -/
def argInt (mod : Modifier) (w : ℕ) : ℤ :=
  match mod with
  | .none => toInt32 w
  | _ => wrap64 w

/-- The unsigned argument the modifier selects. -/
def argUnsigned (mod : Modifier) (w : ℕ) : ℕ :=
  match mod with
  | .none => w % 2 ^ 32
  | _ => w % 2 ^ 64

/-- The rounds of the padding loop, for `ptr` digits. -/
def padCount (f : Format) (ptr : ℕ) : ℕ :=
  if f.pad > f.prec ∧ f.pad > ptr then (min (wrap32 (f.pad - f.prec)) (f.pad - ptr)).toNat else 0

/-- The rounds of the precision loop. -/
def precCount (f : Format) (ptr : ℕ) : ℕ := if f.prec > ptr then (f.prec - ptr).toNat else 0

/-- The padding, the precision and the digits of the scratch buffer from its end. -/
def outputNumber (str : Option ℕ) (size : ℕ) (f : Format) (digits : List UInt8) (buf : List UInt8) :
    Option (ℕ × List UInt8) := do
  let st ← emit str size
    (List.replicate (padCount f digits.length) (if f.zero then ch '0' else ch ' ')) (0, buf)
  let st ← emit str size (List.replicate (precCount f digits.length) (ch '0')) st
  emit str size digits.reverse st

/-- `while ( q )`, on a signed `q`; `k` bounds the rounds. -/
def decLoop : ℕ → ℤ → List UInt8
  | 0, _ => []
  | k + 1, q => if q = 0 then [] else UInt8.ofInt (q.tmod 10 + (ch '0').toNat) :: decLoop k (q.tdiv 10)

/-- The character of a hexadecimal digit. -/
def hexChar (cap : Bool) (r : ℕ) : UInt8 :=
  if r < 10 then UInt8.ofNat (r + (ch '0').toNat)
  else if cap then UInt8.ofNat (r + (ch 'A').toNat - 10)
  else UInt8.ofNat (r + (ch 'a').toNat - 10)

/-- `while ( q )`, on an unsigned `q`. -/
def hexLoop (cap : Bool) : ℕ → ℕ → List UInt8
  | 0, _ => []
  | k + 1, q => if q = 0 then [] else hexChar cap (q &&& 0xf) :: hexLoop cap k (q >>> 4)

/-- `if ( !ptr )`: one digit at least. -/
def orZero (digits : List UInt8) : List UInt8 := if digits = [] then [ch '0'] else digits

/-- The scratch buffer of `_output_decimal`: the digits from the low end, and the sign. -/
def decimalDigits (val : ℤ) : List UInt8 :=
  if val < 0 then orZero (decLoop 64 (wrap64 (val * -1))) ++ [ch '-'] else orZero (decLoop 64 val)

/-- The scratch buffer of `_output_hexdecimal` and `_output_pointer`. -/
def hexDigits (cap : Bool) (val : ℕ) : List UInt8 := orZero (hexLoop cap 64 val)

/-- `_output_percent` and the end of `_output_char`. -/
def outputOne (c : UInt8) (str : Option ℕ) (size : ℕ) (buf : List UInt8) : Option (ℕ × List UInt8) :=
  if str ≠ none ∧ size > 1 then do
    let base ← str
    let buf ← store buf base c
    some (1, buf)
  else some (1, buf)

/-- `_output_decimal`. -/
def outputDecimal (str : Option ℕ) (size : ℕ) (f : Format) (args : List ℕ) (buf : List UInt8) :
    Option (ℕ × List UInt8) :=
  outputNumber str size f (decimalDigits (argInt f.mod (nextArg args))) buf

/-- `_output_hexdecimal`. -/
def outputHexdecimal (str : Option ℕ) (size : ℕ) (f : Format) (args : List ℕ) (cap : Bool) (buf : List UInt8) :
    Option (ℕ × List UInt8) :=
  outputNumber str size f (hexDigits cap (argUnsigned f.mod (nextArg args))) buf

/-- `_output_pointer`: no modifier, and lower case. -/
def outputPointer (str : Option ℕ) (size : ℕ) (f : Format) (args : List ℕ) (buf : List UInt8) :
    Option (ℕ × List UInt8) :=
  outputNumber str size f (hexDigits false (argUnsigned .longlong (nextArg args))) buf

/-- "(null)". -/
def nullText : List UInt8 := [ch '(', ch 'n', ch 'u', ch 'l', ch 'l', ch ')']

/-- The string an argument points to. -/
def argString (mem : ℕ → CString) (w : ℕ) : List UInt8 := if w = 0 then nullText else mem w

/-- `_output_string`. -/
def outputString (str : Option ℕ) (size : ℕ) (mem : ℕ → CString) (args : List ℕ) (buf : List UInt8) :
    Option (ℕ × List UInt8) :=
  emit str size (argString mem (nextArg args)) (0, buf)

/-- `_output`. -/
def output (str : Option ℕ) (size : ℕ) (mem : ℕ → CString) (f : Format) (args : List ℕ) (buf : List UInt8) :
    Option (ℕ × List UInt8) :=
  if f.spec = ch '%' then outputOne (ch '%') str size buf
  else if f.spec = ch 's' then outputString str size mem args buf
  else if f.spec = ch 'c' then outputOne (UInt8.ofNat (nextArg args)) str size buf
  else if f.spec = ch 'd' then outputDecimal str size f args buf
  else if f.spec = ch 'x' then outputHexdecimal str size f args false buf
  else if f.spec = ch 'X' then outputHexdecimal str size f args true buf
  else if f.spec = ch 'p' then outputPointer str size f args buf
  else some (0, buf)

/-- The arguments that are left after `_output`: all conversions that are known but "%%" take one. -/
def argsAfter (f : Format) (args : List ℕ) : List ℕ :=
  if f.spec ∈ [ch 's', ch 'c', ch 'd', ch 'x', ch 'X', ch 'p'] then args.tail else args

/-! ### The loop over the format -/

/-- One conversion: `_output` with the rest of the buffer, or with `NULL` when the buffer is full. -/
def outputChunk (mem : ℕ → CString) (size : ℕ) (f : Format) (args : List ℕ) (pos : ℕ) (buf : List UInt8) :
    Option (ℕ × List UInt8) :=
  if wrap64 size > pos then output (some pos) (size - pos) mem f args buf
  else output none 0 mem f args buf

/-- The loop of `kvsnprintf`; `k` bounds the rounds. -/
def formatLoop (mem : ℕ → CString) (size : ℕ) : ℕ → List UInt8 → List ℕ → ℕ × List UInt8 →
    Option (ℕ × List UInt8)
  | 0, _, _, _ => none
  | _ + 1, [], _, st => some st
  | k + 1, c :: s, args, (pos, buf) =>
    if c = ch '%' then do
      let (f, s) ← parseFormat (c :: s)
      let r ← outputChunk mem size f args pos buf
      formatLoop mem size k s (argsAfter f args) (pos + r.1, r.2)
    else do
      let buf ← (if pos + 1 < size then store buf pos c else some buf :)
      formatLoop mem size k s args (pos + 1, buf)

/-- `kvsnprintf`: the result, and what is copied to `str`. `tmpstr` is what `alloca` finds on the stack. -/
def kvsnprintf (mem : ℕ → CString) (size : ℕ) (format : CString) (args : List ℕ) (tmpstr : List UInt8) :
    Option (ℤ × List UInt8) := do
  let (pos, buf) ← formatLoop mem size (format.1.length + 1) format.1 args (0, tmpstr)
  let buf ← (if pos + 1 < size then store buf pos 0 else some buf :)
  let buf ← store buf (size - 1) 0
  some (wrap32 pos, buf)

end Advos.Strfmt
