import IdlBridge.Text.Alphabet

/-! # Words of a command line

    A word that starts with a hyphen is an option, the others are arguments. An option may be given
    by a unique beginning of one of its long names, and its value in the same word: behind `=`, or
    directly behind a short name. Short names that take no value may share a word. Behind the word
    `--` all words are arguments. A hyphen alone, a negative number and a word with a space are
    arguments too, unless they name an option.
-/

namespace IdlBridge.Command

/-- An option: what it stands for, its names, and whether it takes a value. -/
structure OptionSpec (κ : Type) where
  key : κ
  names : List Text
  takesValue : Bool

/-- What is wrong with a command line. -/
inductive Misuse where
  /-- A word could be more than one option. -/
  | ambiguous (word : Text)
  /-- An option lacks its value. -/
  | valueMissing (name : Text)
  /-- An option has been given a value that it does not take. -/
  | valueUnwanted (name : Text)
  /-- A value is none of those that are offered. -/
  | notOffered (word : Text)
  /-- Nothing is known about a word. -/
  | unrecognized (word : Text)
  /-- An argument is missing. -/
  | argumentMissing (name : Text)
deriving DecidableEq

namespace Misuse

/-- The misuse in words. -/
def message : Misuse → Text
  | .ambiguous word => "ambiguous option: " ++ word
  | .valueMissing name => name ++ ": expected one argument"
  | .valueUnwanted name => name ++ ": takes no argument"
  | .notOffered word => "invalid choice: " ++ word
  | .unrecognized word => "unrecognized arguments: " ++ word
  | .argumentMissing name => "the following arguments are required: " ++ name

end Misuse

/-- A value in the word of its option. -/
structure Attached where
  /-- The value stands behind `=`. -/
  behindSign : Bool
  text : Text
deriving DecidableEq

/-- How a word is taken. -/
inductive Role (κ : Type) where
  | argument
  /-- The word behind which all are arguments. -/
  | divider
  /-- An option under one of its names, with the value in the same word. -/
  | option (spec : OptionSpec κ) (name : Text) (value : Option Attached)
  /-- An option that is not known. -/
  | unknown

/-- The hyphen that options start with. -/
def hyphen : CodePoint := '-'

/-- The word behind which all are arguments. -/
def dividerWord : Text := "--"

section

variable {κ : Type}

/-- The options of a command with their names. -/
def namesOf (specs : List (OptionSpec κ)) : List (Text × OptionSpec κ) :=
  specs.flatMap fun s => s.names.map fun n => (n, s)

/-- The option of a name. -/
def spec? (specs : List (OptionSpec κ)) (name : Text) : Option (OptionSpec κ) :=
  specs.find? (name ∈ ·.names)

/-- The name has two hyphens. -/
def isLong (word : Text) : Bool :=
  Text.startsWith word "--"

/-- The word is a negative number. -/
def isNegativeNumber (word : Text) : Bool :=
  match word with
  | [] => false
  | c :: rest =>
    let isDecimal (c : CodePoint) : Bool := c.decimalValue?.isSome
    let tail := rest.dropWhile isDecimal
    c = hyphen && match tail with
      | [] => !rest.isEmpty
      | point :: places => point = '.' && !places.isEmpty && places.all isDecimal

/-- The word up to the first `=`, and the value behind it. -/
def splitValue (word : Text) : Text × Option Attached :=
  match Text.cut? '=' word with
  | some (name, value) => (name, some ⟨true, value⟩)
  | none => (word, none)

/-- The options that a word which is no name may mean. -/
def candidates (specs : List (OptionSpec κ)) (word : Text) :
    List (OptionSpec κ × Text × Option Attached) :=
  if isLong word then
    let (start, value) := splitValue word
    (namesOf specs).filterMap fun (n, s) =>
      if Text.startsWith n start then some (s, n, value) else none
  else
    (namesOf specs).filterMap fun (n, s) =>
      if n = word.take 2 then some (s, n, some ⟨false, word.drop 2⟩) else none

/-- How a word in front of the divider is taken. -/
def roleOf (specs : List (OptionSpec κ)) (word : Text) : Except Misuse (Role κ) :=
  if word.head? ≠ some hyphen then .ok .argument
  else
    match spec? specs word with
    | some s => .ok (.option s word none)
    | none =>
      if word.length = 1 then .ok .argument
      else
        -- A whole name in front of `=` goes before the beginnings of names.
        let (name, value) := splitValue word
        match value, spec? specs name with
        | some v, some s => .ok (.option s name (some v))
        | _, _ =>
          match candidates specs word with
          | [(s, n, v)] => .ok (.option s n v)
          | _ :: _ :: _ => .error (.ambiguous word)
          | [] =>
            if isNegativeNumber word || (' ' : CodePoint) ∈ word then .ok .argument
            else .ok .unknown

/-- The words of a command line with the way they are taken. -/
def rolesOf (specs : List (OptionSpec κ)) : List Text → Except Misuse (List (Text × Role κ))
  | [] => .ok []
  | word :: rest =>
    if word = dividerWord then .ok ((word, .divider) :: rest.map fun w => (w, .argument))
    else do
      let role ← roleOf specs word
      return (word, role) :: (← rolesOf specs rest)

/-- An option that has been given, with its value if it takes one. -/
structure Given (κ : Type) where
  key : κ
  value : Text

/-- What the word of an option gives: options, perhaps a rest that nothing is known about, and the
    words behind. -/
structure OptionReading (κ : Type) where
  given : List (Given κ)
  unrecognized : Option Text
  rest : List (Text × Role κ)

/-- The value behind a short name in the same word. -/
def attachedValue? : Text → Option Attached
  | [] => none
  | c :: more => some (if c = '=' then ⟨true, more⟩ else ⟨false, c :: more⟩)

theorem length_attachedValue?_le {t : Text} {a : Attached} (h : attachedValue? t = some a) :
    a.text.length ≤ t.length := by
  cases t with
  | nil => simp [attachedValue?] at h
  | cons c more =>
    simp only [attachedValue?, Option.some.injEq] at h
    split at h <;> simp [← h]

/-- Reads the text directly behind a short name as further short names, the first option being one
    that takes no value. -/
def readShort (specs : List (OptionSpec κ)) (key : κ) (text : Text) (words : List (Text × Role κ)) :
    Except Misuse (OptionReading κ) :=
  match text with
  | [] => .error (.valueUnwanted [hyphen])
  | c :: more =>
    if c = hyphen then .error (.valueUnwanted text)
    else
      let name := [hyphen, c]
      match spec? specs name with
      -- The first option is still given; the rest of the word is what nothing is known about.
      | none => .ok ⟨[⟨key, []⟩], some (hyphen :: text), words⟩
      | some next =>
        match _ : attachedValue? more with
        | none =>
          if next.takesValue then
            match words with
            | (value, .argument) :: rest => .ok ⟨[⟨key, []⟩, ⟨next.key, value⟩], none, rest⟩
            | _ => .error (.valueMissing name)
          else .ok ⟨[⟨key, []⟩, ⟨next.key, []⟩], none, words⟩
        | some value =>
          if next.takesValue then .ok ⟨[⟨key, []⟩, ⟨next.key, value.text⟩], none, words⟩
          else if value.behindSign then .error (.valueUnwanted name)
          else do
            let r ← readShort specs next.key value.text words
            return { r with given := ⟨key, []⟩ :: r.given }
termination_by text.length
decreasing_by
  have := length_attachedValue?_le ‹attachedValue? _ = some _›
  simp only [List.length_cons]
  omega

/-- Reads an option. -/
def readOption (specs : List (OptionSpec κ)) (spec : OptionSpec κ) (name : Text)
    (value : Option Attached) (words : List (Text × Role κ)) : Except Misuse (OptionReading κ) :=
  match value with
  | none =>
    if spec.takesValue then
      match words with
      | (value, .argument) :: rest => .ok ⟨[⟨spec.key, value⟩], none, rest⟩
      | _ => .error (.valueMissing name)
    else .ok ⟨[⟨spec.key, []⟩], none, words⟩
  | some value =>
    if spec.takesValue then .ok ⟨[⟨spec.key, value.text⟩], none, words⟩
    else if isLong name || value.behindSign then .error (.valueUnwanted name)
    else readShort specs spec.key value.text words

end

end IdlBridge.Command
