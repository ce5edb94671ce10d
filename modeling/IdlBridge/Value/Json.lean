import IdlBridge.Value.Display

/-! # Data as JSON text

    The JSON text of data on one line, with a space after each comma and colon. Everything beyond
    ASCII is escaped by its UTF-16 units. Dates, times, octet strings and sets have no JSON text,
    and a key is a text, a number, a truth value or null, which the latter four become by being
    written down.
-/

namespace IdlBridge

namespace Value

/-- The text of a scalar that is not quoted. -/
def bareJson? : Value → Option Text
  | .null => some "null"
  | .bool b => some (if b then "true" else "false")
  | .int i => intText? i
  | .float x => some (x.toText .data)
  | _ => none

/-- The JSON text of a key. -/
def keyJson? : Value → Option Text
  | .text t => some (t.dataString true)
  | v => v.bareJson?.map (Text.dataString true)

/-- The JSON text of data. -/
def json? : Value → Option Text
  | .text t => some (t.dataString true)
  | .list xs => (items xs).map fun ts => "[" ++ Text.join ", " ts ++ "]"
  | .pair k v =>
    match k.json?, v.json? with
    | some s, some t => some ("[" ++ s ++ ", " ++ t ++ "]")
    | _, _ => none
  | .map es => (entries es).map fun ts => "\x7b" ++ Text.join ", " ts ++ "\x7d"
  | .null => some "null"
  | .bool b => some (if b then "true" else "false")
  | .int i => intText? i
  | .float x => some (x.toText .data)
  | .date _ => none
  | .timestamp _ => none
  | .bytes _ => none
  | .set _ => none
where
  items : List Value → Option (List Text)
    | [] => some []
    | x :: rest =>
      match x.json?, items rest with
      | some t, some ts => some (t :: ts)
      | _, _ => none
  entries : List (Value × Value) → Option (List Text)
    | [] => some []
    | (k, v) :: rest =>
      match k.keyJson?, v.json?, entries rest with
      | some s, some t, some ts => some ((s ++ ": " ++ t) :: ts)
      | _, _, _ => none

end Value

end IdlBridge
