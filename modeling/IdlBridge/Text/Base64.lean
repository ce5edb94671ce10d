import IdlBridge.Text.Basic

/-! # Octets in base 64

    Three octets are written as four characters, the last group being filled up with `=`. Written
    text is cut into lines of `lineLength` characters, each ended by a line feed. A reader skips
    every character that is no digit and stops at a filled-up group; it refuses a text that ends
    inside a group.
-/

namespace IdlBridge

namespace Base64

/-- The digits in the order of their values. -/
def alphabet : Text :=
  "ABCDEFGHIJKLMNOPQRSTUVWXYZabcdefghijklmnopqrstuvwxyz0123456789+/"

/-- The digit of a value below 64. -/
def digit (n : Nat) : CodePoint :=
  alphabet.getD n '='

/-- The value of a digit. -/
def value? (c : CodePoint) : Option Nat :=
  alphabet.findIdx? (· = c)

/-- The digits of the octets, without line ends. -/
def digits : List Nat → Text
  | [] => []
  | [a] => [digit (a / 4), digit (a % 4 * 16), '=', '=']
  | [a, b] => [digit (a / 4), digit (a % 4 * 16 + b / 16), digit (b % 16 * 4), '=']
  | a :: b :: c :: rest =>
    digit (a / 4) :: digit (a % 4 * 16 + b / 16) :: digit (b % 16 * 4 + c / 64) :: digit (c % 64) ::
      digits rest

/-- The characters of a line. -/
def lineLength : Nat := 76

/-- Cuts a text into lines and ends each of them. -/
def wrap : (bound : Nat) → Text → Text
  | 0, _ => []
  | bound + 1, t =>
    if t = [] then []
    else t.take lineLength ++ "\n" ++ wrap bound (t.drop lineLength)

/-- The octets as lines of digits. -/
def encode (octets : List Nat) : Text :=
  let t := digits octets
  wrap t.length t

/-- Reads digits. `group` holds the values of the digits of the open group, `fill` the number of
    `=` since the last digit. -/
def read : Text → (group : List Nat) → (fill : Nat) → Option (List Nat)
  | [], group, _ => if group = [] then some [] else none
  | c :: rest, group, fill =>
    if c = '=' then
      -- Padding that fills the open group ends the data; before two digits it is skipped.
      if 2 ≤ group.length then
        if 4 ≤ group.length + fill + 1 then some [] else read rest group (fill + 1)
      else read rest group fill
    else
      match value? c with
      -- Characters that are no digits are skipped wherever they stand.
      | none => read rest group fill
      | some v =>
        match group with
        | [] => read rest [v] 0
        | [a] => (read rest [a, v] 0).map ((a * 4 + v / 16) :: ·)
        | [a, b] => (read rest [a, b, v] 0).map ((b % 16 * 16 + v / 4) :: ·)
        | _ :: _ :: d :: _ => (read rest [] 0).map ((d % 4 * 64 + v) :: ·)

/-- The octets that a text stands for; `none` if it ends inside a group. -/
def decode? (t : Text) : Option (List Nat) :=
  read t [] 0

end Base64

end IdlBridge
