import RiscvOs.Kernel.Strhelp

/-! `printf.c`, of which `sbi/` and `user/libc/` have copies. As in the source,
whatever prints is given the output of one character. The arguments behind the
format are words, and a `char *` stands for the bytes before its zero byte. The
conversions of floating point numbers are left out. -/
namespace Kernel.Printf

open Semantics

/-- `out_fct_type`: the character and its index, and what the output works on. -/
abbrev Out (σ : Type) :=
  Byte → Nat → σ → σ

/-- `_out_buffer` -/
def outBuffer (buffer : Word) (maxlen : Nat) : Out Memory :=
  fun c idx m => if idx < maxlen then m.store (buffer + BitVec.ofNat 64 idx) c else m

/-- `_out_null` -/
def outNull {σ : Type} : Out σ :=
  fun _ _ s => s

/-- `_out_fct` -/
def outFct {σ : Type} (fct : Byte → σ → σ) : Out σ :=
  fun c _ s => if c ≠ 0 then fct c s else s

/-- `_out_char`, on the characters that were sent. -/
def outChar : Out (List Byte) :=
  outFct fun c sent => sent ++ [c]

/-- The bits of `flags`. -/
structure Flags where
  zeropad : Bool
  left : Bool
  plus : Bool
  space : Bool
  hash : Bool
  uppercase : Bool
  char : Bool
  short : Bool
  long : Bool
  longLong : Bool
  precision : Bool
  deriving DecidableEq

def noFlags : Flags :=
  ⟨false, false, false, false, false, false, false, false, false, false, false⟩

/-- `PRINTF_NTOA_BUFFER_SIZE` -/
def ntoaBufferSize : Nat :=
  32

section Output

variable {σ : Type} (out : Out σ)

/-- `out(c, buffer, idx++, maxlen)`, on `idx` and what the output works on. -/
def put (c : Byte) (p : Nat × σ) : Nat × σ :=
  (p.1 + 1, out c p.1 p.2)

def putAll (text : List Byte) (p : Nat × σ) : Nat × σ :=
  text.foldl (fun p c => put out c p) p

/-- `_out_rev`, with the `len` characters of `buf`. -/
def outRev (buf : List Byte) (width : Nat) (flags : Flags) (p : Nat × σ) : Nat × σ :=
  let startIdx := p.1
  let p := if !flags.left && !flags.zeropad then (put out (char ' '))^[width - buf.length] p else p
  let p := buf.foldr (put out) p
  if flags.left then (put out (char ' '))^[width - (p.1 - startIdx)] p else p

/-- `buf[len++] = c` where there is room. -/
def push (buf : List Byte) (c : Byte) : List Byte :=
  if buf.length < ntoaBufferSize then buf ++ [c] else buf

/-- Zeros up to a length. -/
def padZeros (buf : List Byte) (len : Nat) : List Byte :=
  buf ++ List.replicate (min len ntoaBufferSize - buf.length) (char '0')

/-- The part of `_ntoa_format` for `FLAGS_HASH`. -/
def hashPrefix (buf : List Byte) (base prec width : Nat) (flags : Flags) : List Byte :=
  let buf :=
    if !flags.precision && buf.length ≠ 0 && (buf.length = prec || buf.length = width) then
      let buf := buf.dropLast
      if buf.length ≠ 0 && base = 16 then buf.dropLast else buf
    else buf
  let buf :=
    if base = 16 then push buf (if flags.uppercase then char 'X' else char 'x')
    else if base = 2 then push buf (char 'b')
    else buf
  push buf (char '0')

/-- The width behind the start of `_ntoa_format`. -/
def ntoaWidth (negative : Bool) (width : Nat) (flags : Flags) : Nat :=
  if !flags.left && width ≠ 0 && flags.zeropad && (negative || flags.plus || flags.space) then
    width - 1
  else width

/-- The characters at the end of `_ntoa_format`, for the given width. -/
def ntoaBuf (buf : List Byte) (negative : Bool) (base prec width : Nat) (flags : Flags) : List Byte :=
  let buf :=
    if !flags.left then
      let buf := padZeros buf prec
      if flags.zeropad then padZeros buf width else buf
    else buf
  let buf := if flags.hash then hashPrefix buf base prec width flags else buf
  if negative then push buf (char '-')
  else if flags.plus then push buf (char '+')
  else if flags.space then push buf (char ' ')
  else buf

/-- `_ntoa_format` -/
def ntoaFormat (buf : List Byte) (negative : Bool) (base prec width : Nat) (flags : Flags)
    (p : Nat × σ) : Nat × σ :=
  let width := ntoaWidth negative width flags
  outRev out (ntoaBuf buf negative base prec width flags) width flags p

/-- The character of a digit. -/
def digitOf (uppercase : Bool) (digit : Nat) : Byte :=
  if digit < 10 then char '0' + BitVec.ofNat 8 digit
  else (if uppercase then char 'A' else char 'a') + BitVec.ofNat 8 (digit - 10)

/-- The loop over the digits, with what is left of `buf`. -/
def ntoaDigits (uppercase : Bool) (base : Nat) : Nat → Nat → List Byte
  | 0, _ => []
  | room + 1, value =>
      digitOf uppercase (value % base) ::
        if value / base ≠ 0 then ntoaDigits uppercase base room (value / base) else []

/-- `buf` behind the loop; a precision asks for no digit of zero. -/
def ntoaStart (value base : Nat) (flags : Flags) : List Byte :=
  if !flags.precision || value ≠ 0 then ntoaDigits flags.uppercase base ntoaBufferSize value else []

/-- `_ntoa_long`, and `_ntoa_long_long`, whose numbers are as wide. -/
def ntoaLong (value : Nat) (negative : Bool) (base prec width : Nat) (flags : Flags)
    (p : Nat × σ) : Nat × σ :=
  let flags := if value = 0 then { flags with hash := false } else flags
  ntoaFormat out (ntoaStart value base flags) negative base prec width flags p

/-- The case of a character. -/
def putCharacter (c : Byte) (width : Nat) (flags : Flags) (p : Nat × σ) : Nat × σ :=
  let p := if !flags.left then (put out (char ' '))^[width - 1] p else p
  let p := put out c p
  if flags.left then (put out (char ' '))^[width - 1] p else p

/-- `_strnlen_s` -/
def strnlen (text : List Byte) (maxsize : Nat) : Nat :=
  min text.length maxsize % 2 ^ 32

/-- The case of a string. -/
def putString (text : List Byte) (precision width : Nat) (flags : Flags) (p : Nat × σ) : Nat × σ :=
  let l := strnlen text (if precision ≠ 0 then precision else 2 ^ 64 - 1)
  let l := if flags.precision then min l precision else l
  let p := if !flags.left then (put out (char ' '))^[width - l] p else p
  let p := putAll out (if flags.precision then text.take precision else text) p
  if flags.left then (put out (char ' '))^[width - l] p else p

end Output

/-! ## The format -/

/-- The loop over the flags. -/
def parseFlags : Flags → List Byte → Flags × List Byte
  | flags, [] => (flags, [])
  | flags, c :: format =>
      if c = char '0' then parseFlags { flags with zeropad := true } format
      else if c = char '-' then parseFlags { flags with left := true } format
      else if c = char '+' then parseFlags { flags with plus := true } format
      else if c = char ' ' then parseFlags { flags with space := true } format
      else if c = char '#' then parseFlags { flags with hash := true } format
      else (flags, c :: format)

/-- `_atoi` -/
def atoiFormat : BitVec 32 → List Byte → BitVec 32 × List Byte
  | i, [] => (i, [])
  | i, c :: format =>
      if isDigit c then atoiFormat (i * 10 + (c - char '0').setWidth 32) format else (i, c :: format)

/-- `*format` -/
def peek (format : List Byte) : Byte :=
  format.headD 0

/-- A directive as far as it is read: its flags, width and precision, the format
behind it, and the arguments that are left. -/
structure Directive where
  flags : Flags
  width : Nat
  precision : Nat
  format : List Byte
  args : List Word

/-- The width field; there may be no argument for it. -/
def parseWidth (d : Directive) : Option Directive :=
  if isDigit (peek d.format) then
    let (width, format) := atoiFormat 0 d.format
    some { d with width := width.toNat, format := format }
  else if peek d.format = char '*' then
    match d.args with
    | [] => none
    | arg :: args =>
        let w := arg.setWidth 32
        let d := { d with format := d.format.tail, args := args }
        if w.toInt < 0 then some { d with flags.left := true, width := (-w).toNat }
        else some { d with width := w.toNat }
  else some d

/-- The precision field. -/
def parsePrecision (d : Directive) : Option Directive :=
  if peek d.format = char '.' then
    let d := { d with flags.precision := true, format := d.format.tail }
    if isDigit (peek d.format) then
      let (precision, format) := atoiFormat 0 d.format
      some { d with precision := precision.toNat, format := format }
    else if peek d.format = char '*' then
      match d.args with
      | [] => none
      | arg :: args =>
          let prec := arg.setWidth 32
          some { d with
            precision := if prec.toInt > 0 then prec.toNat else 0
            format := d.format.tail
            args := args }
    else some d
  else some d

/-- The length field; the types for `t`, `j` and `z` are as long as `long`. -/
def parseLength (d : Directive) : Directive :=
  if peek d.format = char 'l' then
    let d := { d with flags.long := true, format := d.format.tail }
    if peek d.format = char 'l' then { d with flags.longLong := true, format := d.format.tail } else d
  else if peek d.format = char 'h' then
    let d := { d with flags.short := true, format := d.format.tail }
    if peek d.format = char 'h' then { d with flags.char := true, format := d.format.tail } else d
  else if peek d.format = char 't' ∨ peek d.format = char 'j' ∨ peek d.format = char 'z' then
    { d with flags.long := true, format := d.format.tail }
  else d

/-- What is read between a `%` and the specifier. -/
def parse (format : List Byte) (args : List Word) : Option Directive := do
  let (flags, format) := parseFlags noFlags format
  let d ← parseWidth ⟨flags, 0, 0, format, args⟩
  let d ← parsePrecision d
  some (parseLength d)

/-- The base of an integer specifier. -/
def baseOf (spec : Byte) : Option Nat :=
  if spec = char 'x' ∨ spec = char 'X' then some 16
  else if spec = char 'o' then some 8
  else if spec = char 'b' then some 2
  else if spec = char 'd' ∨ spec = char 'i' ∨ spec = char 'u' then some 10
  else none

/-- The flags that the integer conversions go on with. -/
def integerFlags (spec : Byte) (base : Nat) (flags : Flags) : Flags :=
  let flags := if base = 10 then { flags with hash := false } else flags
  let flags := if spec = char 'X' then { flags with uppercase := true } else flags
  let flags :=
    if spec ≠ char 'i' ∧ spec ≠ char 'd' then { flags with plus := false, space := false } else flags
  if flags.precision then { flags with zeropad := false } else flags

/-- Whether the argument is negative, and what is converted. -/
def integerArg (spec : Byte) (flags : Flags) (arg : Word) : Bool × Nat :=
  if spec = char 'i' ∨ spec = char 'd' then
    if flags.longLong || flags.long then
      (arg.toInt < 0, (if arg.toInt > 0 then arg else 0 - arg).toNat)
    else
      -- A `char` is `unsigned`.
      let value : BitVec 32 :=
        if flags.char then (arg.setWidth 8).setWidth 32
        else if flags.short then (arg.setWidth 16).signExtend 32
        else arg.setWidth 32
      (value.toInt < 0, (if value.toInt > 0 then value else 0 - value).toNat)
  else if flags.longLong || flags.long then (false, arg.toNat)
  else
    let value : BitVec 32 :=
      if flags.char then (arg.setWidth 8).setWidth 32
      else if flags.short then (arg.setWidth 16).setWidth 32
      else arg.setWidth 32
    (false, value.toNat)

def isFloat (spec : Byte) : Bool :=
  (literalText "fFeEgG").contains spec

section Conversions

variable {σ : Type} (out : Out σ) (strings : Word → List Byte)

/-- The conversions that take an argument. -/
def putArg (spec : Byte) (d : Directive) (arg : Word) (p : Nat × σ) : Nat × σ :=
  match baseOf spec with
  | some base =>
      let flags := integerFlags spec base d.flags
      let (negative, value) := integerArg spec flags arg
      ntoaLong out value negative base d.precision d.width flags p
  | none =>
      if spec = char 'c' then putCharacter out (arg.setWidth 8) d.width d.flags p
      else if spec = char 's' then putString out (strings arg) d.precision d.width d.flags p
      else
        ntoaLong out arg.toNat false 16 d.precision 16
          { d.flags with zeropad := true, uppercase := true } p

def takesArg (spec : Byte) : Bool :=
  (baseOf spec).isSome || spec = char 'c' || spec = char 's' || spec = char 'p'

/-- One turn of the loop of `_vsnprintf`, at a character of the format. It has no
meaning at the end of a format within a directive, or without an argument. -/
def turn (c : Byte) (format : List Byte) (args : List Word) (p : Nat × σ) :
    Option (List Byte × List Word × (Nat × σ)) :=
  if c ≠ char '%' then some (format, args, put out c p)
  else do
    let d ← parse format args
    match d.format with
    | [] => none
    | spec :: format =>
        if isFloat spec then none
        else if takesArg spec then
          match d.args with
          | [] => none
          | arg :: args => some (format, args, putArg out strings spec d arg p)
        else some (format, d.args, put out spec p)

/-- The loop of `_vsnprintf`, and the arguments that it leaves. -/
def formatLoop : Nat → List Byte → List Word → Nat × σ → Option (List Word × (Nat × σ))
  | 0, _, _, _ => none
  | _ + 1, [], args, p => some (args, p)
  | fuel + 1, c :: format, args, p => do
      let (format, args, p) ← turn out strings c format args p
      formatLoop fuel format args p

/-- `_vsnprintf`; every turn reads a character of the format. Where `maxlen` is
zero, `maxlen - 1U` is no index either. -/
def vsnprintf (maxlen : Nat) (format : List Byte) (args : List Word) (s : σ) :
    Option (BitVec 32 × σ) := do
  let (_, idx, s) ← formatLoop out strings (format.length + 1) format args (0, s)
  let s := out 0 (if idx < maxlen then idx else maxlen - 1) s
  some (BitVec.ofNat 32 idx, s)

end Conversions

/-- `(size_t)-1` -/
def sizeMax : Nat :=
  2 ^ 64 - 1

variable (strings : Word → List Byte)

def printf (format : List Byte) (args : List Word) (sent : List Byte) :
    Option (BitVec 32 × List Byte) :=
  vsnprintf outChar strings sizeMax format args sent

def snprintf (buffer : Word) (count : Nat) (format : List Byte) (args : List Word) (m : Memory) :
    Option (BitVec 32 × Memory) :=
  if buffer = 0 then vsnprintf outNull strings count format args m
  else vsnprintf (outBuffer buffer count) strings count format args m

def sprintf (buffer : Word) (format : List Byte) (args : List Word) (m : Memory) :
    Option (BitVec 32 × Memory) :=
  snprintf strings buffer sizeMax format args m

def fctprintf {σ : Type} (fct : Byte → σ → σ) (format : List Byte) (args : List Word) (s : σ) :
    Option (BitVec 32 × σ) :=
  vsnprintf (outFct fct) strings sizeMax format args s

end Kernel.Printf
