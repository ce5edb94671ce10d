import IdlBridge.Text.Alphabet

/-! # Path templates

    A parameter of a path is written `{id}` in an OpenAPI document and `:id` in an interface
    definition. Both directions work from the left and take the longest run of word characters as
    the parameter's name; braces and colons that enclose or start no name stay as they are.
-/

namespace IdlBridge

namespace Route

/-- The longest word at the front of a text. -/
def word (t : Text) : Text :=
  t.takeWhile CodePoint.isWord

/-- What follows the longest word at the front of a text. -/
def afterWord (t : Text) : Text :=
  t.dropWhile CodePoint.isWord

theorem length_afterWord_le (t : Text) : (afterWord t).length ≤ t.length :=
  (List.dropWhile_sublist _).length_le

set_option linter.unusedVariables false in
/-- Turns each `{name}` into `:name`. -/
def bracesToColons : Text → Text
  | [] => []
  | c :: rest =>
    match h : afterWord rest with
    | d :: tail =>
      if c = '{' ∧ word rest ≠ [] ∧ d = '}' then
        ':' :: (word rest ++ bracesToColons tail)
      else c :: bracesToColons rest
    | [] => c :: bracesToColons rest
termination_by t => t.length
decreasing_by
  · have := length_afterWord_le rest
    simp_all
    omega
  all_goals simp

/-- Turns each `:name` into `{name}`. -/
def colonsToBraces : Text → Text
  | [] => []
  | c :: rest =>
    if c = ':' ∧ word rest ≠ [] then
      '{' :: (word rest ++ "\x7d" ++ colonsToBraces (afterWord rest))
    else c :: colonsToBraces rest
termination_by t => t.length
decreasing_by
  · have := length_afterWord_le rest
    simp
    omega
  · simp

end Route

end IdlBridge
