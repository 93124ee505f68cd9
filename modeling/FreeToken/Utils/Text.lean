import Mathlib.Data.List.Infix

/-!
# Text

A Python string is a list of characters, with the methods that the server uses.
-/

namespace FreeToken

abbrev Text := List Char

namespace Text

/-- The characters of `str.isspace`. -/
def isSpace (c : Char) : Bool :=
  let n := c.toNat
  (0x09 ≤ n && n ≤ 0x0D) || (0x1C ≤ n && n ≤ 0x20) || n == 0x85 || n == 0xA0 || n == 0x1680 ||
    (0x2000 ≤ n && n ≤ 0x200A) || n == 0x2028 || n == 0x2029 || n == 0x202F || n == 0x205F || n ==
      0x3000

def lstrip (t : Text) : Text := t.dropWhile isSpace

def rstrip (t : Text) : Text := (t.reverse.dropWhile isSpace).reverse

def strip (t : Text) : Text := rstrip (lstrip t)

/-- The first place where `s` occurs. -/
def find (s : Text) : Text → Option ℕ
  | [] => if s = [] then some 0 else none
  | c :: t => if s <+: c :: t then some 0 else (find s t).map (· + 1)

/-- What is before the first occurrence of `s`, and what is behind it. -/
def partition (s t : Text) : Option (Text × Text) :=
  (find s t).map fun i => (t.take i, t.drop (i + s.length))

/-- `rfind` of a character: the last place where it occurs. -/
def rfind (c : Char) : Text → Option ℕ
  | [] => none
  | d :: t =>
    match rfind c t with
    | some i => some (i + 1)
    | none => if d = c then some 0 else none

/-- `rfind`: the last place where `s` occurs. -/
def rfindText (s : Text) : Text → Option ℕ
  | [] => if s = [] then some 0 else none
  | c :: t =>
    match rfindText s t with
    | some i => some (i + 1)
    | none => if s <+: c :: t then some 0 else none

def lowerChar (c : Char) : Char := if 'A' ≤ c ∧ c ≤ 'Z' then Char.ofNat (c.toNat + 32) else c

/-- `t.lower() == w`, for a word `w` whose letters are the lower case of no letter but ASCII ones.
-/
def lowerEq (t w : Text) : Bool := t.map lowerChar = w

/-- The length of the longest end of `text` that is a proper start of `tok`, if it is above `best`.
-/
def longestPartial (text : Text) (best : ℕ) (tok : Text) : ℕ :=
  ((List.range' (best + 1) (min (tok.length - 1) text.length - best)).reverse.find?
    fun k => tok.take k <:+ text).getD best

/-- `replace(s, "", 1)`. -/
def removeFirst (s t : Text) : Text :=
  match find s t with
  | some i => t.take i ++ t.drop (i + s.length)
  | none => t

/-- The rest of `replace(s, "")` behind an occurrence of which `skip` characters are left. -/
def removeFrom (s : Text) : ℕ → Text → Text
  | _, [] => []
  | skip + 1, _ :: t => removeFrom s skip t
  | 0, c :: t => if s <+: c :: t then removeFrom s (s.length - 1) t else c :: removeFrom s 0 t

/-- `replace(s, "")`, for a string `s` that is not empty. -/
def remove (s t : Text) : Text := removeFrom s 0 t

end Text

end FreeToken
