/-
The JSON library of the service (`lib/cJSON.c`): items, printing, parsing.

Pointers into a text are the remaining text (`Scan.Scanner`), a null result is a
refusal.  Allocation never fails; of the blocks only the size of those that
strings are decoded into is looked at here.  A `double` is a rational
that is rounded to 53 bits after every operation, with unbounded exponent.

* `CJson` — an item with what its `type` makes of its fields;
* `parseString`, `parseNumber`, `parseValue`, `cJsonParse` — the parser;
* `printStringPtr`, `printNumber`, `printValue`, `cJsonPrint` — the printer,
  in the formatted mode, which is the only one the service uses;
* `getObjectItem` — lookup of a member, without regard to case.
-/
import KbPm.CText
import KbPm.Lib.Scan
import KbPm.Lib.Rounding

namespace KbPm

open Scan

/-- A cJSON item, by its `type`. -/
inductive CJson
  | null
  | bool (b : Bool)
  | number (valuedouble : ℚ)
  | string (valuestring : Text)
  | array (child : List CJson)
  | object (child : List (Text × CJson))

/-- The value of a `double` expression. -/
def double (q : ℚ) : ℚ := Rounding.roundTo 53 q

/-- `(int)d`; the conversion of a value that is out of range gives `INT_MIN`. -/
def intOfDouble (d : ℚ) : Int32 :=
  let n := if 0 ≤ d then ⌊d⌋ else ⌈d⌉
  if -2 ^ 31 ≤ n ∧ n < 2 ^ 31 then Int32.ofInt n else Int32.minValue

namespace CJson

/-- `item->valuestring`, null unless the item is a string. -/
def valuestring : CJson → Option Text
  | string s => some s
  | _ => none

/-- `item->valueint` -/
def valueint : CJson → Int32
  | number d => intOfDouble d
  | bool true => 1
  | _ => 0

/-- The chain of `item->child`: the names, null for the items of an array, and
the items themselves. -/
def children : CJson → List (Option Text × CJson)
  | array child => child.map fun v => (none, v)
  | object child => child.map fun m => (some m.1, m.2)
  | _ => []

end CJson

/-! ### Characters -/

abbrev quote : UInt8 := 34
abbrev backslash : UInt8 := 92
abbrev minus : UInt8 := 45
abbrev comma : UInt8 := 44
abbrev colon : UInt8 := 58
abbrev lbracket : UInt8 := 91
abbrev rbracket : UInt8 := 93
abbrev lbrace : UInt8 := 123
abbrev rbrace : UInt8 := 125
abbrev tab : UInt8 := 9
abbrev newline : UInt8 := 10
abbrev space : UInt8 := 32
/-- the `u` of a `\u` escape -/
abbrev letterU : UInt8 := 117

/-- What `skip` moves over. -/
def blank (c : UInt8) : Bool := c != 0 && c ≤ 32

/-- `skip` -/
def skip : Scanner UInt8 Fault Unit := skipWhile blank

/-! ### Parsing strings -/

/-- One digit of `parse_hex4`. -/
def hexVal (c : UInt8) : Option ℕ :=
  if 48 ≤ c ∧ c ≤ 57 then some (c.toNat - 48)
  else if 65 ≤ c ∧ c ≤ 70 then some (10 + (c.toNat - 65))
  else if 97 ≤ c ∧ c ≤ 102 then some (10 + (c.toNat - 97))
  else none

/-- `parse_hex4`: four hexadecimal digits, or 0. -/
def parseHex4 (t : Text) : ℕ :=
  (do
    let a ← hexVal (t.getD 0 0)
    let b ← hexVal (t.getD 1 0)
    let c ← hexVal (t.getD 2 0)
    let d ← hexVal (t.getD 3 0)
    return ((a * 16 + b) * 16 + c) * 16 + d).getD 0

/-- The UTF-8 bytes of a code point, as the `switch (len)` of `parse_string`
writes them from the last to the first. -/
def encodeUtf8 (uc : ℕ) : Text :=
  let next (u : ℕ) : UInt8 := ((u ||| 0x80) &&& 0xBF).toUInt8
  if uc < 0x80 then [uc.toUInt8]
  else if uc < 0x800 then [((uc >>> 6) ||| 0xC0).toUInt8, next uc]
  else if uc < 0x10000 then [((uc >>> 12) ||| 0xE0).toUInt8, next (uc >>> 6), next uc]
  else [((uc >>> 18) ||| 0xF0).toUInt8, next (uc >>> 12), next (uc >>> 6), next uc]

/-- The `\u` escape: `ptr` is at the `u`.  The bytes written, and how far `ptr`
moves; it moves over the digits without looking at them. -/
def unicodeEscape (ptr : Text) : Text × ℕ :=
  let uc := parseHex4 (ptr.drop 1)
  if (0xDC00 ≤ uc ∧ uc ≤ 0xDFFF) ∨ uc = 0 then ([], 5)
  else if 0xD800 ≤ uc ∧ uc ≤ 0xDBFF then
    if ptr.getD 5 0 ≠ backslash ∨ ptr.getD 6 0 ≠ letterU then ([], 5)
    else
      let uc2 := parseHex4 (ptr.drop 7)
      if uc2 < 0xDC00 ∨ 0xDFFF < uc2 then ([], 11)
      else (encodeUtf8 (0x10000 + (((uc &&& 0x3FF) <<< 10) ||| (uc2 &&& 0x3FF))), 11)
  else (encodeUtf8 uc, 5)

/-- The `switch (*ptr)` behind a backslash: the bytes written, and how far `ptr`
moves. -/
def escape (ptr : Text) : Text × ℕ :=
  match peek ptr with
  | 98 => ([8], 1)
  | 102 => ([12], 1)
  | 110 => ([10], 1)
  | 114 => ([13], 1)
  | 116 => ([9], 1)
  | 117 => unicodeEscape ptr
  | c => ([c], 1)

/-- The second loop of `parse_string`: the bytes written and the place where it stops.
The first argument counts the bytes that an escape has still to be moved over. -/
def unescape : ℕ → Text → Text × Text
  | _, [] => ([], [])
  | skipped + 1, _ :: ptr => unescape skipped ptr
  | 0, c :: ptr =>
    if c = quote ∨ c = 0 then ([], c :: ptr)
    else if c ≠ backslash then
      let r := unescape 0 ptr
      (c :: r.1, r.2)
    else
      let e := escape ptr
      let r := unescape e.2 ptr
      (e.1 ++ r.1, r.2)

/-- The first loop of `parse_string`, which measures the string: what it makes of `len`.  A
backslash is counted with the byte behind it, and nothing is known of `\u` here.  The first
argument counts the bytes that have still to be moved over. -/
def stringLength : ℕ → Text → ℕ
  | _, [] => 0
  | skipped + 1, _ :: ptr => stringLength skipped ptr
  | 0, c :: ptr =>
    if c = quote ∨ c = 0 then 0
    else 1 + stringLength (if c = backslash then 1 else 0) ptr

/-- `parse_string`: the bytes and their NUL are written into a block of `len + 1` bytes. -/
def parseString : Scanner UInt8 Fault Text := fun ptr =>
  if peek ptr ≠ quote then .error .refused
  else
    let len := stringLength 0 (ptr.drop 1)
    let r := unescape 0 (ptr.drop 1)
    if len + 1 < r.1.length + 1 then .error (.broken .heap)
    else .ok (r.1, if peek r.2 = quote then r.2.drop 1 else r.2)

/-- A string is read whose bytes fit into the block. -/
theorem parseString_ok {ptr rest out : Text} :
    parseString ptr = .ok (out, rest) ↔ peek ptr = quote ∧ out = (unescape 0 (ptr.drop 1)).1 ∧
      out.length ≤ stringLength 0 (ptr.drop 1) ∧
      rest = if peek (unescape 0 (ptr.drop 1)).2 = quote then (unescape 0 (ptr.drop 1)).2.drop 1
        else (unescape 0 (ptr.drop 1)).2 := by
  simp only [parseString]
  by_cases hq : peek ptr = quote
  · rw [if_neg (not_not.mpr hq)]
    by_cases hlen : (unescape 0 (ptr.drop 1)).1.length ≤ stringLength 0 (ptr.drop 1)
    · rw [if_neg (by omega), Except.ok.injEq, Prod.mk.injEq]
      constructor
      · rintro ⟨rfl, rfl⟩
        exact ⟨hq, rfl, hlen, rfl⟩
      · rintro ⟨-, rfl, -, rfl⟩
        exact ⟨rfl, rfl⟩
    · rw [if_pos (by omega)]
      refine iff_of_false (by simp) ?_
      rintro ⟨-, rfl, hle, -⟩
      exact hlen hle
  · rw [if_pos hq]
    exact iff_of_false (by simp) fun h => hq h.1

/-- The block is too short for what is written into it. -/
theorem parseString_broken {ptr : Text} {f : Fault} :
    parseString ptr = .error (.broken f) ↔ peek ptr = quote ∧ f = .heap ∧
      stringLength 0 (ptr.drop 1) < (unescape 0 (ptr.drop 1)).1.length := by
  simp only [parseString]
  by_cases hq : peek ptr = quote
  · rw [if_neg (not_not.mpr hq)]
    split_ifs with hlen
    · rw [Except.error.injEq, Stop.broken.injEq]
      exact ⟨fun h => ⟨hq, h.symm, by omega⟩, fun h => h.2.1.symm⟩
    · exact iff_of_false (by simp) fun h => hlen (by omega)
  · rw [if_pos hq]
    exact iff_of_false (by simp) fun h => hq h.1

/-! ### Parsing numbers -/

/-- `do n=(n*10.0)+(*num++ -'0'); while (*num>='0' && *num<='9');` -/
def readDigits (n : ℚ) : Text → ℚ × Text
  | [] => (n, [])
  | c :: num =>
    if isDigit c then readDigits (double (double (n * 10) + (c.toNat - 48 : ℕ))) num
    else (n, c :: num)

/-- The digits before the point: `0`, or digits that do not start with `0`, or both. -/
def readInteger (num : Text) : ℚ × Text :=
  let num := if peek num = 48 then num.drop 1 else num
  if 49 ≤ peek num ∧ peek num ≤ 57 then readDigits 0 num else (0, num)

/-- The digits behind the point, which go on from `n`, and how many there are. -/
def readFraction (n : ℚ) (num : Text) : ℚ × ℕ × Text :=
  if peek num = 46 ∧ isDigit (num.getD 1 0) then
    let r := readDigits n (num.drop 1)
    (r.1, (num.drop 1).length - r.2.length, r.2)
  else (n, 0, num)

/-- `while (*num>='0' && *num<='9') subscale=(subscale*10)+(*num++ - '0');` -/
def readSubscale (subscale : ℕ) : Text → ℕ × Text
  | [] => (subscale, [])
  | c :: num =>
    if isDigit c then readSubscale (subscale * 10 + (c.toNat - 48)) num else (subscale, c :: num)

/-- The exponent. -/
def readExponent (num : Text) : ℤ × Text :=
  if peek num = 101 ∨ peek num = 69 then
    let num := num.drop 1
    if peek num = 43 then
      let r := readSubscale 0 (num.drop 1)
      (r.1, r.2)
    else if peek num = minus then
      let r := readSubscale 0 (num.drop 1)
      (-r.1, r.2)
    else
      let r := readSubscale 0 num
      (r.1, r.2)
  else (0, num)

/-- `parse_number`; the result is the item's `valuedouble`. -/
def parseNumber : Scanner UInt8 Fault ℚ := fun num =>
  let sign : ℚ := if peek num = minus then -1 else 1
  let num := if peek num = minus then num.drop 1 else num
  let i := readInteger num
  let f := readFraction i.1 i.2
  let e := readExponent f.2.2
  .ok (double (sign * f.1 * double (10 ^ (e.1 - f.2.1))), e.2)

/-! ### Parsing values -/

/-- `parse_array`, over the scanner for its items. -/
def parseArray (items : Scanner UInt8 Fault (List CJson)) : Scanner UInt8 Fault (List CJson) := do
  expect lbracket
  skip
  branch rbracket (pure []) items

/-- `parse_object`, over the scanner for its members. -/
def parseObject (members : Scanner UInt8 Fault (List (Text × CJson))) :
    Scanner UInt8 Fault (List (Text × CJson)) := do
  expect lbrace
  skip
  branch rbrace (pure []) members

/-- The three words that `parse_value` looks for first. -/
def parseWord (value : Text) : Option (CJson × Text) :=
  if value.take 4 = str "null" then some (.null, value.drop 4)
  else if value.take 5 = str "false" then some (.bool false, value.drop 5)
  else if value.take 4 = str "true" then some (.bool true, value.drop 4)
  else none

mutual

/-- `parse_value`; the first argument bounds the depth of the recursion and the
number of iterations of its loops. -/
def parseValue : ℕ → Scanner UInt8 Fault CJson
  | 0 => fun _ => .error .refused
  | n + 1 => fun value =>
    match parseWord value with
    | some r => .ok r
    | none =>
      if peek value = quote then (parseString >>= fun s => pure (.string s)) value
      else if peek value = minus ∨ isDigit (peek value) then
        (parseNumber >>= fun d => pure (.number d)) value
      else if peek value = lbracket then
        (parseArray (parseItems n) >>= fun vs => pure (.array vs)) value
      else if peek value = lbrace then
        (parseObject (parseMembers n) >>= fun ms => pure (.object ms)) value
      else .error .refused

/-- The items of an array up to the closing bracket: the first one, and the
`while (*value==',')` loop. -/
def parseItems : ℕ → Scanner UInt8 Fault (List CJson)
  | 0 => fun _ => .error .refused
  | n + 1 => do
    skip
    let v ← parseValue n
    skip
    branch comma
      (do
        let vs ← parseItems n
        return v :: vs)
      (do
        expect rbracket
        return [v])

/-- The members of an object up to the closing brace. -/
def parseMembers : ℕ → Scanner UInt8 Fault (List (Text × CJson))
  | 0 => fun _ => .error .refused
  | n + 1 => do
    skip
    let k ← parseString
    skip
    expect colon
    skip
    let v ← parseValue n
    skip
    branch comma
      (do
        let ms ← parseMembers n
        return (k, v) :: ms)
      (do
        expect rbrace
        return [(k, v)])

end

theorem parseValue_word {n : ℕ} {value : Text} {r : CJson × Text} (h : parseWord value = some r) :
    parseValue (n + 1) value = .ok r := by
  rw [parseValue]
  simp only [h]

theorem parseValue_rest {n : ℕ} {value : Text} (h : parseWord value = none) :
    parseValue (n + 1) value =
      if peek value = quote then (parseString >>= fun s => pure (.string s)) value
      else if peek value = minus ∨ isDigit (peek value) then
        (parseNumber >>= fun d => pure (.number d)) value
      else if peek value = lbracket then
        (parseArray (parseItems n) >>= fun vs => pure (.array vs)) value
      else if peek value = lbrace then
        (parseObject (parseMembers n) >>= fun ms => pure (.object ms)) value
      else .error .refused := by
  rw [parseValue]
  simp only [h]

/-- `cJSON_Parse`, null if the text is refused; the text may go on behind the value. -/
def cJsonParse (value : Text) : Except Fault (Option CJson) :=
  let value := value.dropWhile blank
  outcome (parseValue (2 * value.length + 1) value)

/-! ### Printing -/

/-- A byte that makes `print_string_ptr` take its escaping path. -/
def special (c : UInt8) : Bool := (c != 0 && c < 32) || c == quote || c == backslash

/-- `sprintf(ptr2,"u%04x",token)`, for a byte. -/
def unicodeText (token : UInt8) : Text :=
  let hex (d : ℕ) : UInt8 := if d < 10 then (48 + d).toUInt8 else (87 + d).toUInt8
  [letterU, 48, 48, hex (token.toNat / 16), hex (token.toNat % 16)]

/-- One byte in the escaping path. -/
def escapeByte (c : UInt8) : Text :=
  if 31 < c ∧ c ≠ quote ∧ c ≠ backslash then [c]
  else backslash :: match c with
    | 92 => [92]
    | 34 => [34]
    | 8 => [98]
    | 12 => [102]
    | 10 => [110]
    | 13 => [114]
    | 9 => [116]
    | token => unicodeText token

/-- `print_string_ptr` -/
def printStringPtr (s : Text) : Text :=
  if s.any special then quote :: s.flatMap escapeByte ++ [quote]
  else quote :: s ++ [quote]

/-- `%.0f` -/
def formatWhole (d : ℚ) : Text := decimal (Rounding.roundEven d)

/-- The last `k` decimal digits of `n`, with leading zeros. -/
def padded (k n : ℕ) : Text := List.replicate (k - (digitsOf n).length) 48 ++ digitsOf n

/-- `%f` -/
def formatFixed (d : ℚ) : Text :=
  let m := (Rounding.roundEven (|d| * 10 ^ 6)).toNat
  (if d < 0 then [minus] else []) ++ decimal (m / 10 ^ 6 : ℕ) ++ 46 :: padded 6 (m % 10 ^ 6)

/-- `%e` -/
def formatScientific (d : ℚ) : Text :=
  let k := Int.log 10 |d|
  let m := (Rounding.roundEven (|d| / 10 ^ (k - 6))).toNat
  let (m, k) := if m = 10 ^ 7 then (10 ^ 6, k + 1) else (m, k)
  (if d < 0 then [minus] else []) ++ decimal (m / 10 ^ 6 : ℕ) ++ 46 :: padded 6 (m % 10 ^ 6) ++
    101 :: (if k < 0 then minus else 43) :: padded 2 k.natAbs

/-- `DBL_EPSILON` -/
def dblEpsilon : ℚ := 1 / 2 ^ 52

/-- `print_number`, for a `valuedouble` that is a normal number or zero. -/
def printNumber (d : ℚ) : Text :=
  let valueint := (intOfDouble d).toInt
  if d = 0 then [48]
  else if |(valueint : ℚ) - d| ≤ dblEpsilon ∧ d ≤ 2 ^ 31 - 1 ∧ -2 ^ 31 ≤ d then decimal valueint
  else if |(⌊d⌋ : ℚ) - d| ≤ dblEpsilon ∧ |d| < 10 ^ 60 then formatWhole d
  else if |d| < 1 / 10 ^ 6 ∨ 10 ^ 9 < |d| then formatScientific d
  else formatFixed d

/-- The indentation of formatted output. -/
def tabs (depth : ℕ) : Text := List.replicate depth tab

mutual

/-- `print_value(item, depth, 1, 0)` -/
def printValue (depth : ℕ) : CJson → Text
  | .null => str "null"
  | .bool false => str "false"
  | .bool true => str "true"
  | .number d => printNumber d
  | .string s => printStringPtr s
  | .array child => lbracket :: printItems (depth + 1) child ++ [rbracket]
  | .object child => lbrace :: newline :: printMembers (depth + 1) child ++ tabs depth ++ [rbrace]

/-- The entries of `print_array`, with the separators between them. -/
def printItems (depth : ℕ) : List CJson → Text
  | [] => []
  | v :: vs =>
    printValue depth v ++ (if vs.isEmpty then [] else [comma, space]) ++ printItems depth vs

/-- The lines of `print_object`. -/
def printMembers (depth : ℕ) : List (Text × CJson) → Text
  | [] => []
  | (k, v) :: ms =>
    tabs depth ++ printStringPtr k ++ [colon, tab] ++ printValue depth v ++
      (if ms.isEmpty then [] else [comma]) ++ [newline] ++ printMembers depth ms

end

/-- `cJSON_Print` -/
def cJsonPrint (item : CJson) : Text := printValue 0 item

/-! ### Members -/

/-- `tolower` -/
def tolower (c : UInt8) : UInt8 := if 65 ≤ c ∧ c ≤ 90 then c + 32 else c

/-- `cJSON_strcasecmp(s1, s2) == 0`, where `s1` may be null and `s2` is not. -/
def strcaseeq (s1 : Option Text) (s2 : Text) : Bool :=
  match s1 with
  | none => false
  | some s1 => (cstr s1).map tolower == (cstr s2).map tolower

/-- `cJSON_GetObjectItem` -/
def getObjectItem (item : CJson) (name : Text) : Option CJson :=
  (item.children.find? fun m => strcaseeq m.1 name).map Prod.snd

end KbPm
