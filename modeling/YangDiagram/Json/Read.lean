-- Reading JSON text: one left-to-right fold over the code units. A repeated key keeps its first
-- place and takes the last value, a number reads as the nearest double, and a failure names the
-- first unit that cannot stand where it is.
import YangDiagram.Json.Value
import YangDiagram.Decimal.Nearest

namespace YangDiagram.Json

/-- Why a text is not one JSON value. -/
inductive ReadProblem where
  /-- The text ends where more must come. -/
  | endOfInput
  /-- A unit that cannot stand at its place. -/
  | unexpected
  /-- A unit other than `"` or `}` right after `{`. -/
  | expectedKeyOrClose
  /-- A unit other than `"` after a comma in an object. -/
  | expectedKey
  /-- A unit other than `:` after a key. -/
  | expectedColon
  /-- A unit other than `,` or `]` after an item of an array. -/
  | expectedCommaOrCloseArray
  /-- A unit other than `,` or `}` after a member of an object. -/
  | expectedCommaOrCloseObject
  /-- The text ends inside a string. -/
  | unterminatedString
  /-- A control character inside a string. -/
  | controlCharacter
  /-- A `\u` escape without four hexadecimal digits. -/
  | badUnicodeEscape
  /-- A backslash before a unit up to U+00FF that escapes nothing; a wider unit there is
  unexpected, and the end of the text there is the end of the input. -/
  | badEscape
  /-- A minus sign without a digit after it. -/
  | noDigitAfterMinus
  /-- A decimal point without a digit after it. -/
  | unterminatedFraction
  /-- An exponent mark without a digit after it and its sign. -/
  | missingExponent
  /-- More than blanks after the value. -/
  | trailing
  deriving DecidableEq, Inhabited

/-- A problem and the position, in code units, where it was found. -/
structure ReadError where
  problem : ReadProblem
  position : Nat
  deriving DecidableEq, Inhabited

/-- The part of a number being read. -/
inductive NumberPart where
  /-- After a minus sign. -/
  | sign
  /-- After a leading zero. -/
  | zero
  /-- In the digits of the whole part. -/
  | whole
  /-- After the decimal point. -/
  | point
  /-- In the digits of the fraction. -/
  | fraction
  /-- After the exponent mark. -/
  | mark
  /-- After the exponent's sign. -/
  | expSign
  /-- In the digits of the exponent. -/
  | exponent

/-- An array or object still open: the items so far, or the members so far with the key whose
value comes next. -/
inductive Open where
  | array (items : List Value)
  | object (members : Members) (key : Text)

/-- What the reader is in the middle of, or what must come next. Units and characters read so
far are kept last first. -/
inductive Reading where
  /-- A value must come; `]` may come instead right after `[`. -/
  | value (closeAllowed : Bool)
  /-- A key or `}` must come, right after `{`. -/
  | keyOrClose
  /-- A key must come, after a comma in an object. -/
  | key
  /-- A colon must come, after a key. -/
  | colon
  /-- A comma or the close of the innermost container must come. -/
  | commaOrClose
  /-- The value is read; only blanks may follow. -/
  | done (v : Value)
  /-- Inside a string, a key when `isKey`. -/
  | text (acc : List UInt16) (isKey : Bool)
  /-- Right after a backslash inside a string. -/
  | escape (acc : List UInt16) (isKey : Bool)
  /-- Inside a `\u` escape, with the digits read so far. -/
  | hex (acc : List UInt16) (isKey : Bool) (digits : List Nat)
  /-- Inside a number. -/
  | number (acc : List Char) (part : NumberPart)
  /-- Inside `true`, `false` or `null`, with the characters still to come. -/
  | word (rest : List Char) (v : Value)

/-- The state of the reader: the containers still open, innermost first, and what it reads. -/
structure Reader where
  stack : List Open
  reading : Reading

/-- Whether a unit is a blank between tokens. -/
def isBlank (u : UInt16) : Bool := u = 0x20 || u = 0x09 || u = 0x0A || u = 0x0D

def isDigit (u : UInt16) : Bool := 0x30 ≤ u.toNat && u.toNat ≤ 0x39

def hexValue? (u : UInt16) : Option Nat :=
  let n := u.toNat
  if 0x30 ≤ n ∧ n ≤ 0x39 then some (n - 0x30)
  else if 0x61 ≤ n ∧ n ≤ 0x66 then some (n - 0x61 + 10)
  else if 0x41 ≤ n ∧ n ≤ 0x46 then some (n - 0x41 + 10)
  else none

/-- The unit an escape letter stands for. -/
def escaped? (u : UInt16) : Option UInt16 :=
  match u.toNat with
  | 0x22 => some 0x22
  | 0x5C => some 0x5C
  | 0x2F => some 0x2F
  | 0x62 => some 0x08
  | 0x66 => some 0x0C
  | 0x6E => some 0x0A
  | 0x72 => some 0x0D
  | 0x74 => some 0x09
  | _ => none

def digitsValue (ds : List Char) : Nat :=
  ds.foldl (fun n d => 10 * n + (d.toNat - '0'.toNat)) 0

/-- The double a well-formed number text stands for: an optional minus, whole digits, an
optional fraction and an optional exponent. -/
def numberValue (cs : List Char) : Float :=
  let (negative, cs) := match cs with
    | '-' :: r => (true, r)
    | r => (false, r)
  let whole := cs.takeWhile Char.isDigit
  let cs := cs.dropWhile Char.isDigit
  let (fraction, cs) := match cs with
    | '.' :: r => (r.takeWhile Char.isDigit, r.dropWhile Char.isDigit)
    | r => ([], r)
  let exponent : Int := match cs with
    | _ :: '-' :: r => -(digitsValue r : Int)
    | _ :: '+' :: r => digitsValue r
    | _ :: r => digitsValue r
    | [] => 0
  Decimal.nearest negative (digitsValue (whole ++ fraction)) (exponent - fraction.length)

/-- A finished value, placed into the innermost open container. -/
def place (v : Value) : List Open → Reader
  | [] => ⟨[], .done v⟩
  | .array items :: rest => ⟨.array (items ++ [v]) :: rest, .commaOrClose⟩
  | .object ms k :: rest => ⟨.object (Members.set ms k v) ⟨[]⟩ :: rest, .commaOrClose⟩

def closeInner : List Open → Reader
  | [] => ⟨[], .commaOrClose⟩
  | .array items :: rest => place (.arr items) rest
  | .object ms _ :: rest => place (.obj ms) rest

def failAt {α : Type} (p : ReadProblem) (pos : Nat) : Except ReadError α := .error ⟨p, pos⟩

def asciiChar (u : UInt16) : Char := Char.ofNat u.toNat

/-- One unit read where no string, number or word is in progress. -/
def stepBetween (pos : Nat) (st : Reader) (u : UInt16) : Except ReadError Reader :=
  let c := asciiChar u
  match st.reading with
  | .value closeAllowed =>
    if isBlank u then .ok st
    else if c = '"' then .ok { st with reading := .text [] false }
    else if c = '-' then .ok { st with reading := .number ['-'] .sign }
    else if c = '0' then .ok { st with reading := .number ['0'] .zero }
    else if isDigit u then .ok { st with reading := .number [c] .whole }
    else if c = '{' then .ok ⟨.object [] ⟨[]⟩ :: st.stack, .keyOrClose⟩
    else if c = '[' then .ok ⟨.array [] :: st.stack, .value true⟩
    else if c = 't' then .ok { st with reading := .word ['r', 'u', 'e'] (.bool true) }
    else if c = 'f' then .ok { st with reading := .word ['a', 'l', 's', 'e'] (.bool false) }
    else if c = 'n' then .ok { st with reading := .word ['u', 'l', 'l'] .null }
    else if c = ']' && closeAllowed then .ok (closeInner st.stack)
    else failAt .unexpected pos
  | .keyOrClose =>
    if isBlank u then .ok st
    else if c = '"' then .ok { st with reading := .text [] true }
    else if c = '}' then .ok (closeInner st.stack)
    else failAt .expectedKeyOrClose pos
  | .key =>
    if isBlank u then .ok st
    else if c = '"' then .ok { st with reading := .text [] true }
    else failAt .expectedKey pos
  | .colon =>
    if isBlank u then .ok st
    else if c = ':' then .ok { st with reading := .value false }
    else failAt .expectedColon pos
  | .commaOrClose =>
    if isBlank u then .ok st
    else
      match st.stack with
      | .array _ :: _ =>
        if c = ',' then .ok { st with reading := .value false }
        else if c = ']' then .ok (closeInner st.stack)
        else failAt .expectedCommaOrCloseArray pos
      | _ =>
        if c = ',' then .ok { st with reading := .key }
        else if c = '}' then .ok (closeInner st.stack)
        else failAt .expectedCommaOrCloseObject pos
  | .done _ => if isBlank u then .ok st else failAt .trailing pos
  | _ => .ok st

/-- A string finished: a key waits for its colon, a value is placed. -/
def endText (st : Reader) (acc : List UInt16) (isKey : Bool) : Reader :=
  if isKey then
    match st.stack with
    | .object ms _ :: rest => ⟨.object ms ⟨acc.reverse⟩ :: rest, .colon⟩
    | stack => ⟨stack, .colon⟩
  else place (.str ⟨acc.reverse⟩) st.stack

/-- The state after a number ends before a unit that is not part of it. -/
def endNumber (st : Reader) (acc : List Char) : Reader :=
  place (.num (numberValue acc.reverse)) st.stack

def step (st : Reader) (pu : UInt16 × Nat) : Except ReadError Reader :=
  let (u, pos) := pu
  let c := asciiChar u
  match st.reading with
  | .text acc isKey =>
    if c = '"' then .ok (endText st acc isKey)
    else if c = '\\' then .ok { st with reading := .escape acc isKey }
    else if u.toNat < 0x20 then failAt .controlCharacter pos
    else .ok { st with reading := .text (u :: acc) isKey }
  | .escape acc isKey =>
    if c = 'u' then .ok { st with reading := .hex acc isKey [] }
    else match escaped? u with
      | some e => .ok { st with reading := .text (e :: acc) isKey }
      | none => if u.toNat > 0xFF then failAt .unexpected pos else failAt .badEscape pos
  | .hex acc isKey ds =>
    match hexValue? u with
    | some d =>
      if ds.length = 3 then
        let unit := ((ds ++ [d]).foldl (fun n x => 16 * n + x) 0).toUInt16
        .ok { st with reading := .text (unit :: acc) isKey }
      else .ok { st with reading := .hex acc isKey (ds ++ [d]) }
    | none => failAt .badUnicodeEscape pos
  | .number acc part =>
    let continueWith (p : NumberPart) : Except ReadError Reader :=
      .ok { st with reading := .number (c :: acc) p }
    let ended : Except ReadError Reader := stepBetween pos (endNumber st acc) u
    let isMark := c = 'e' || c = 'E'
    match part with
    | .sign =>
      if c = '0' then continueWith .zero
      else if isDigit u then continueWith .whole
      else failAt .noDigitAfterMinus pos
    | .zero =>
      if isDigit u then failAt .unexpected pos
      else if c = '.' then continueWith .point
      else if isMark then continueWith .mark
      else ended
    | .whole =>
      if isDigit u then continueWith .whole
      else if c = '.' then continueWith .point
      else if isMark then continueWith .mark
      else ended
    | .point => if isDigit u then continueWith .fraction else failAt .unterminatedFraction pos
    | .fraction =>
      if isDigit u then continueWith .fraction
      else if isMark then continueWith .mark
      else ended
    | .mark =>
      if c = '+' || c = '-' then continueWith .expSign
      else if isDigit u then continueWith .exponent
      else failAt .missingExponent pos
    | .expSign => if isDigit u then continueWith .exponent else failAt .missingExponent pos
    | .exponent => if isDigit u then continueWith .exponent else ended
  | .word rest v =>
    match rest with
    | next :: more =>
      if c = next && u.toNat < 0x80 then
        if more.isEmpty then .ok (place v st.stack) else .ok { st with reading := .word more v }
      else failAt .unexpected pos
    | [] => .ok (place v st.stack)
  | _ => stepBetween pos st u

/-- The value read when the text ends in a state. -/
def finishAt (len : Nat) (st : Reader) : Except ReadError Value :=
  let between (st : Reader) : Except ReadError Value :=
    match st.reading with
    | .done v => .ok v
    | .keyOrClose => failAt .expectedKeyOrClose len
    | .key => failAt .expectedKey len
    | .colon => failAt .expectedColon len
    | .commaOrClose =>
      match st.stack with
      | .array _ :: _ => failAt .expectedCommaOrCloseArray len
      | _ => failAt .expectedCommaOrCloseObject len
    | _ => failAt .endOfInput len
  match st.reading with
  | .text .. => failAt .unterminatedString len
  | .escape .. => failAt .endOfInput len
  | .hex .. => failAt .badUnicodeEscape len
  | .number acc part =>
    match part with
    | .sign => failAt .noDigitAfterMinus len
    | .point => failAt .unterminatedFraction len
    | .mark | .expSign => failAt .missingExponent len
    | _ => between (endNumber st acc)
  | _ => between st

/-- Reads a JSON text: the one value it holds, or where and why it is not one. -/
def Value.read (t : Text) : Except ReadError Value := do
  let st ← t.units.zipIdx.foldlM step ⟨[], .value false⟩
  finishAt t.width st

def Value.read? (t : Text) : Option Value :=
  match Value.read t with
  | .ok v => some v
  | .error _ => none

namespace ReadError

/-- The line and column of a position: a carriage return, a line feed, or the two together end a
line. -/
def lineColumn (source : Text) (pos : Nat) : Nat × Nat :=
  let (line, start, _) := (source.units.take pos).zipIdx.foldl
    (fun (acc : Nat × Nat × Bool) (u, i) =>
      let (line, start, afterReturn) := acc
      if u = 0x0A && afterReturn then (line, i + 1, false)
      else if u = 0x0A || u = 0x0D then (line + 1, i + 1, u = 0x0D)
      else (line, start, false)) (1, 0, false)
  (line, pos - start + 1)

/-- The texts that are named whole when they fail to read. -/
def specialTexts : List Text := ["[object Object]", "undefined", "Infinity", "NaN"]

def slice (source : Text) (start stop : Nat) : Text := ⟨(source.units.drop start).take (stop - start)⟩

/-- The message of a unit that cannot stand where it is: the whole text when it is short, else up
to ten units on each side of the position. -/
def unexpectedMessage (source : Text) (pos : Nat) : Text :=
  let u := Text.ofUnit (source.units.getD pos 0)
  let len := source.width
  let token : Text := "Unexpected token '" ++ u ++ "', "
  if specialTexts.contains source then "\"" ++ source ++ "\" is not valid JSON"
  else if len < 21 then token ++ "\"" ++ source ++ "\" is not valid JSON"
  else if pos < 10 then token ++ "\"" ++ slice source 0 (pos + 10) ++ "\"... is not valid JSON"
  else if pos + 10 < len then
    token ++ "...\"" ++ slice source (pos - 10) (pos + 10) ++ "\"... is not valid JSON"
  else token ++ "...\"" ++ slice source (pos - 10) len ++ "\" is not valid JSON"

/-- What a problem found at a position says, before the position. -/
def problemText : ReadProblem → String
  | .endOfInput => "Unexpected end of JSON input"
  | .unexpected => "Unexpected token in JSON"
  | .expectedKeyOrClose => "Expected property name or '\x7d' in JSON"
  | .expectedKey => "Expected double-quoted property name in JSON"
  | .expectedColon => "Expected ':' after property name in JSON"
  | .expectedCommaOrCloseArray => "Expected ',' or ']' after array element in JSON"
  | .expectedCommaOrCloseObject => "Expected ',' or '\x7d' after property value in JSON"
  | .unterminatedString => "Unterminated string in JSON"
  | .controlCharacter => "Bad control character in string literal in JSON"
  | .badUnicodeEscape => "Bad Unicode escape in JSON"
  | .badEscape => "Bad escaped character in JSON"
  | .noDigitAfterMinus => "No number after minus sign in JSON"
  | .unterminatedFraction => "Unterminated fractional number in JSON"
  | .missingExponent => "Exponent part is missing a number in JSON"
  | .trailing => "Unexpected non-whitespace character after JSON"

/-- The message of a read error: an unexpected string at a quote, an unexpected number at a digit
or a minus, and otherwise the unit shown in its context. -/
def message (source : Text) (e : ReadError) : Text :=
  let (line, column) := lineColumn source e.position
  let at_ (what : Text) : Text :=
    what ++ " at position " ++ Text.ofNat e.position ++ " (line " ++ Text.ofNat line ++
      " column " ++ Text.ofNat column ++ ")"
  match e.problem with
  | .endOfInput => "Unexpected end of JSON input"
  | .unexpected =>
    match source.units[e.position]? with
    | none => "Unexpected end of JSON input"
    | some u =>
      if u = 0x22 then at_ "Unexpected string in JSON"
      else if u = 0x2D || isDigit u then at_ "Unexpected number in JSON"
      else unexpectedMessage source e.position
  | p => at_ (problemText p)

end ReadError

end YangDiagram.Json
