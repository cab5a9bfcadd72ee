import ClassDocs.Text.Blank
import ClassDocs.Text.Letter
import ClassDocs.Text.Measure

/-!
# Tokens of a type text

What token stands at the start of an input is decided by its first character, and for some by the
ones behind it. The text of a token is the stretch of input it came from, and is never empty.
-/

namespace ClassDocs.TypeExpr

open ClassDocs.Text

/-- One token of a type text. -/
inductive Token where
  /-- A name, with inner hyphens and with a class constant (`Foo::BAR`, `Foo::*`) attached. -/
  | ident (text : String)
  /-- A dollar sign and the name after it. -/
  | variable (text : String)
  /-- A quoted text with its quotes; without a closing quote it runs to the end of the input. -/
  | quoted (text : String)
  | number (text : String)
  | punct (c : Char)
  | ellipsis
  /-- A character that starts no token of a type. -/
  | other (c : Char)
  deriving DecidableEq, Repr

/-- The stretch of input a token was read from. -/
def Token.text : Token → String
  | .ident t | .variable t | .quoted t | .number t => t
  | .punct c | .other c => .ofList [c]
  | .ellipsis => "..."

/-- The characters a name may start with. -/
def isNameStart (c : Char) : Bool :=
  if c.toNat < 128 then c.isAlpha || c == '_' || c == '\\' else isAlphabetic c

/-- The characters a name may go on with. -/
def isNameChar (c : Char) : Bool :=
  if c.toNat < 128 then isAsciiAlphanumeric c || c == '_' || c == '\\' else isAlphanumeric c

/-- The name at the start of the input. A hyphen belongs to it if the name has begun and an ASCII
letter or digit follows the hyphen. -/
def nameAt (begun : Bool) : List Char → List Char
  | [] => []
  | c :: cs =>
    if isNameChar c then c :: nameAt true cs
    else if c == '-' && begun && (cs.head?.any isAsciiAlphanumeric) then c :: nameAt begun cs
    else []

/-- The characters of a class constant after `::`. -/
def isConstantChar (c : Char) : Bool := isAsciiAlphanumeric c || c == '_' || c == '*'

/-- `::` and the class constant after it, if the input starts so. -/
def constantAt : List Char → List Char
  | ':' :: ':' :: cs => ':' :: ':' :: cs.takeWhile isConstantChar
  | _ => []

/-- The rest of a quoted text, up to and with the closing quote. A backslash takes the next
character's meaning away. -/
def quotedAt (quote : Char) : List Char → List Char
  | [] => []
  | '\\' :: c :: cs => '\\' :: c :: quotedAt quote cs
  | c :: cs => if c == quote then [c] else c :: quotedAt quote cs

/-- The characters a number may go on with. -/
def isNumberChar (c : Char) : Bool := isAsciiAlphanumeric c || c == '.' || c == '_'

/-- The characters that are tokens of their own. -/
def isPunct (c : Char) : Bool :=
  "|&?<>,[]\x7b\x7d():=*".toList.contains c

/-- The token that starts with the character `c`, followed by `cs`, where `c` is not white
space. -/
def tokenAt (c : Char) (cs : List Char) : Token :=
  if c == '.' && ['.', '.'].isPrefixOf cs then .ellipsis
  else if isNameStart c then
    let name := nameAt false (c :: cs)
    let const := constantAt ((c :: cs).drop name.length)
    .ident (.ofList (name ++ const))
  else if c == '$' then .variable (.ofList (c :: nameAt false cs))
  else if c.isDigit || (c == '-' && cs.head?.any Char.isDigit) then
    .number (.ofList (c :: cs.takeWhile isNumberChar))
  else if c == '\'' || c == '"' then .quoted (.ofList (c :: quotedAt c cs))
  else if isPunct c then .punct c
  else .other c

/-! ## A token is a stretch of the input -/

theorem isPrefix_nameAt (begun : Bool) (cs : List Char) : nameAt begun cs <+: cs := by
  induction cs generalizing begun with
  | nil => exact List.nil_prefix
  | cons c cs ih =>
    unfold nameAt
    split
    · exact (List.prefix_cons_inj c).mpr (ih true)
    split
    · exact (List.prefix_cons_inj c).mpr (ih begun)
    · exact List.nil_prefix

theorem isPrefix_constantAt (cs : List Char) : constantAt cs <+: cs := by
  unfold constantAt
  split
  · rw [List.prefix_cons_inj, List.prefix_cons_inj]
    exact List.takeWhile_prefix _
  · exact List.nil_prefix

theorem isPrefix_quotedAt (quote : Char) (cs : List Char) : quotedAt quote cs <+: cs := by
  fun_induction quotedAt quote cs with
  | case1 => exact List.nil_prefix
  | case2 c cs ih =>
    rw [List.prefix_cons_inj, List.prefix_cons_inj]
    exact ih
  | case3 c cs _ _ => exact List.prefix_cons_inj c |>.mpr List.nil_prefix
  | case4 c cs _ _ ih => exact List.prefix_cons_inj c |>.mpr ih

/-- A name and the class constant attached to it are the start of the input. -/
theorem isPrefix_name_constant (cs : List Char) :
    nameAt false cs ++ constantAt (cs.drop (nameAt false cs).length) <+: cs := by
  obtain ⟨rest, hrest⟩ := isPrefix_nameAt false cs
  have hdrop := congrArg (List.drop (nameAt false cs).length) hrest
  rw [List.drop_left] at hdrop
  rw [← hdrop]
  obtain ⟨tail, htail⟩ := isPrefix_constantAt rest
  exact ⟨tail, by rw [List.append_assoc, htail, hrest]⟩

theorem isPrefix_text_tokenAt (c : Char) (cs : List Char) :
    (tokenAt c cs).text.toList <+: c :: cs := by
  unfold tokenAt
  split
  · rename_i h
    rw [Bool.and_eq_true, List.isPrefixOf_iff_prefix] at h
    obtain rfl : c = '.' := by simpa using h.1
    exact (List.prefix_cons_inj '.').mpr h.2
  split
  · simp only [Token.text, String.toList_ofList]
    exact isPrefix_name_constant _
  split
  · simp only [Token.text, String.toList_ofList, List.prefix_cons_inj]
    exact isPrefix_nameAt _ _
  split
  · simp only [Token.text, String.toList_ofList, List.prefix_cons_inj]
    exact List.takeWhile_prefix _
  split
  · simp only [Token.text, String.toList_ofList, List.prefix_cons_inj]
    exact isPrefix_quotedAt _ _
  split
  all_goals simp [Token.text]

theorem isNameChar_of_start {c : Char} (h : isNameStart c = true) : isNameChar c = true := by
  unfold isNameStart at h
  unfold isNameChar
  by_cases hc : c.toNat < 128
  · rw [if_pos hc, Bool.or_eq_true, Bool.or_eq_true] at h
    rw [if_pos hc, Bool.or_eq_true, Bool.or_eq_true, isAsciiAlphanumeric, Char.isAlphanum,
      Bool.or_eq_true]
    exact h.imp_left (Or.imp_left Or.inl)
  · rw [if_neg hc, isAlphabetic, if_neg hc] at h
    rw [if_neg hc, isAlphanumeric, if_neg hc, h, Bool.true_or]

/-- A token takes at least the character it starts with. -/
theorem text_tokenAt_pos (c : Char) (cs : List Char) : 0 < (tokenAt c cs).text.toList.length := by
  unfold tokenAt
  split
  · decide
  split
  · rename_i hstart
    simp [Token.text, nameAt, isNameChar_of_start hstart]
  repeat' split
  all_goals simp [Token.text]

end ClassDocs.TypeExpr
