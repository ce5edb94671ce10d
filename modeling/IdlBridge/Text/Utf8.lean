import IdlBridge.Text.Basic

/-! # UTF-8

    Reading octets as a text and writing a text as octets. Reading is strict: overlong forms,
    surrogates and numbers beyond the code points are refused, and so is a sequence that is cut
    off. Surrogates cannot be written.
-/

namespace IdlBridge.Utf8

/-- The octet continues a sequence. -/
def isTail (b : Nat) : Bool :=
  0x80 ≤ b && b < 0xC0

/-- A code point that may be written, from its number. -/
def scalar? (least n : Nat) : Option CodePoint :=
  if least ≤ n ∧ (n < 0xD800 ∨ 0xDFFF < n) then CodePoint.ofNat? n else none

/-- Reads octets as a text. -/
def decode? : List Nat → Option Text
  | [] => some []
  | a :: rest =>
    if a < 0x80 then (decode? rest).map (CodePoint.ofNat a :: ·)
    else
      match rest with
      | b :: rest =>
        if !isTail b then none
        -- The least code point of each length refuses forms that are longer than they have to be.
        else if 0xC0 ≤ a && a < 0xE0 then
          (scalar? 0x80 ((a - 0xC0) * 0x40 + (b - 0x80))).bind fun c => (decode? rest).map (c :: ·)
        else
          match rest with
          | c :: rest =>
            if !isTail c then none
            else if 0xE0 ≤ a && a < 0xF0 then
              (scalar? 0x800 (((a - 0xE0) * 0x40 + (b - 0x80)) * 0x40 + (c - 0x80))).bind
                fun x => (decode? rest).map (x :: ·)
            else
              match rest with
              | d :: rest =>
                if isTail d && 0xF0 ≤ a && a < 0xF8 then
                  (scalar? 0x10000
                    ((((a - 0xF0) * 0x40 + (b - 0x80)) * 0x40 + (c - 0x80)) * 0x40 +
                      (d - 0x80))).bind
                    fun x => (decode? rest).map (x :: ·)
                else none
              | [] => none
          | [] => none
      | [] => none

/-- The octets of a code point. -/
def encodeOne? (c : CodePoint) : Option (List Nat) :=
  let n := c.toNat
  if n < 0x80 then some [n]
  else if n < 0x800 then some [0xC0 + n / 0x40, 0x80 + n % 0x40]
  else if 0xD800 ≤ n ∧ n ≤ 0xDFFF then none
  else if n < 0x10000 then some [0xE0 + n / 0x1000, 0x80 + n / 0x40 % 0x40, 0x80 + n % 0x40]
  else
    some [0xF0 + n / 0x40000, 0x80 + n / 0x1000 % 0x40, 0x80 + n / 0x40 % 0x40, 0x80 + n % 0x40]

/-- Writes a text as octets. -/
def encode? : Text → Option (List Nat)
  | [] => some []
  | c :: rest =>
    match encodeOne? c, encode? rest with
    | some bs, some more => some (bs ++ more)
    | _, _ => none

/-- Turns every line end into a line feed. -/
def universalLines : Text → Text
  | a :: b :: rest =>
    if a = '\r' then
      if b = '\n' then '\n' :: universalLines rest else '\n' :: universalLines (b :: rest)
    else a :: universalLines (b :: rest)
  | [a] => if a = '\r' then ['\n'] else [a]
  | [] => []

/-- The text of a file: its octets as UTF-8, with line feeds as line ends. -/
def readFile? (octets : List Nat) : Option Text :=
  (decode? octets).map universalLines

end IdlBridge.Utf8
