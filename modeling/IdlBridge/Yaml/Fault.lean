/-! # What can be wrong with a document

    A document is *malformed* when it breaks the rules of the language, of its character set over
    its tokens to the tags of its nodes. It holds something *impossible* when it is well-formed and
    one of its scalars still stands for nothing: a day that no calendar has, a number that cannot
    be read although its tag announces one. The two are told apart because only the first is an
    error of the language.
-/

namespace IdlBridge.Yaml

/-- The rules of the language. -/
inductive Malformed where
  | unprintable
  | strayCharacter
  | missingColon
  | misplacedEntry
  | misplacedKey
  | misplacedValue
  | badDirective
  | badAnchor
  | badTag
  | badBlockHeader
  | badEscape
  | unclosedQuote
  | documentMarkInQuote
  | unexpectedToken
  | unknownTagHandle
  | unknownAlias
  | repeatedAnchor
  | severalDocuments
  | unknownTag
  | wrongNodeKind
  | badMerge
  | containerAsKey
  | badBinary
deriving DecidableEq

/-- The scalars that stand for nothing. -/
inductive Impossible where
  | codePoint
  | number
  | truthValue
  | timestamp
deriving DecidableEq

/-- What is wrong with a document. -/
inductive Fault where
  | malformed (why : Malformed)
  | impossible (what : Impossible)
deriving DecidableEq

namespace Fault

/-- The fault is an error of the language. -/
def isMalformed : Fault → Bool
  | .malformed _ => true
  | .impossible _ => false

end Fault

end IdlBridge.Yaml
