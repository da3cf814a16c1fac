import Mathlib.Data.String.Basic
import Mathlib.Data.List.Sort

/-! JSON documents and the compact text a serializer prints for them. A document
keeps its members in order and may repeat a key; `Json.Canonical` singles out
the values a map-based library can hold. -/

namespace TextJson

structure Binary64 where
  bits : BitVec 64
  finite : bits.extractLsb 62 52 ≠ 2047#11
  deriving DecidableEq

inductive Number
  | int (i : Int)
  | float (f : Binary64)
  deriving DecidableEq

inductive Json
  | null
  | bool (b : Bool)
  | num (n : Number)
  | str (s : String)
  | arr (xs : List Json)
  | obj (members : List (String × Json))

@[elab_as_elim]
theorem Json.induct {motive : Json → Prop} (null : motive .null)
    (bool : ∀ b, motive (.bool b)) (num : ∀ n, motive (.num n)) (str : ∀ s, motive (.str s))
    (arr : ∀ xs, (∀ x ∈ xs, motive x) → motive (.arr xs))
    (obj : ∀ ms, (∀ m ∈ ms, motive m.2) → motive (.obj ms)) (j : Json) : motive j :=
  @Json.rec motive (fun xs => ∀ x ∈ xs, motive x) (fun ms => ∀ m ∈ ms, motive m.2)
    (fun m => motive m.2) null bool num str (fun xs h => arr xs h) (fun ms h => obj ms h)
    (by simp) (fun _ _ hx hxs => List.forall_mem_cons.mpr ⟨hx, hxs⟩)
    (by simp) (fun _ _ hm hms => List.forall_mem_cons.mpr ⟨hm, hms⟩) (fun _ _ h => h) j

def isNumberChar (c : Char) : Bool :=
  c.isDigit || c == '-' || c == '+' || c == '.' || c == 'e' || c == 'E'

def startsNumber (c : Char) : Bool := c.isDigit || c == '-'

def printInt : Int → List Char
  | .ofNat n => Nat.toDigits 10 n
  | .negSucc n => '-' :: Nat.toDigits 10 (n + 1)

def intOfToken : List Char → Int
  | '-' :: digits => -(Nat.ofDigitChars 10 digits 0 : Nat)
  | digits => (Nat.ofDigitChars 10 digits 0 : Nat)

/-- An integer token is read back only if it is the text of its own value, so
that a leading zero, an exponent or a signed zero is left to the float reader. -/
def readInt (token : List Char) : Option Int :=
  if printInt (intOfToken token) = token then some (intOfToken token) else none

/-- The text form of binary64 numbers. Its laws say that a printed float is a
number token no integer prints, and that reading it gives the float back. -/
structure FloatText where
  print : Binary64 → List Char
  read : List Char → Option Binary64
  print_starts : ∀ f, ∃ c cs, print f = c :: cs ∧ startsNumber c = true
  print_chars : ∀ f, ∀ c ∈ print f, isNumberChar c = true
  print_not_int : ∀ f, readInt (print f) = none
  read_print : ∀ f, read (print f) = some f

variable (F : FloatText)

def printNumber : Number → List Char
  | .int i => printInt i
  | .float f => F.print f

def readNumber (token : List Char) : Option Number :=
  match readInt token with
  | some i => some (.int i)
  | none => (F.read token).map .float

def hexDigit (n : Nat) : Char := Nat.digitChar n

def escapeChar (c : Char) : List Char :=
  if c = '"' then ['\\', '"']
  else if c = '\\' then ['\\', '\\']
  else if c = '\x08' then ['\\', 'b']
  else if c = '\x0c' then ['\\', 'f']
  else if c = '\n' then ['\\', 'n']
  else if c = '\r' then ['\\', 'r']
  else if c = '\t' then ['\\', 't']
  else if c.toNat < 32 then
    ['\\', 'u', '0', '0', hexDigit (c.toNat / 16), hexDigit (c.toNat % 16)]
  else [c]

def printStringRest (s : List Char) : List Char := s.flatMap escapeChar ++ ['"']

mutual

def print : Json → List Char
  | .null => ['n', 'u', 'l', 'l']
  | .bool true => ['t', 'r', 'u', 'e']
  | .bool false => ['f', 'a', 'l', 's', 'e']
  | .num n => printNumber F n
  | .str s => '"' :: printStringRest s.toList
  | .arr [] => ['[', ']']
  | .arr (x :: xs) => '[' :: (print x ++ printElems xs)
  | .obj [] => ['{', '}']
  | .obj ((key, value) :: ms) =>
    '{' :: '"' :: (printStringRest key.toList ++ ':' :: (print value ++ printMembers ms))

def printElems : List Json → List Char
  | [] => [']']
  | x :: xs => ',' :: (print x ++ printElems xs)

def printMembers : List (String × Json) → List Char
  | [] => ['}']
  | (key, value) :: ms =>
    ',' :: '"' :: (printStringRest key.toList ++ ':' :: (print value ++ printMembers ms))

end

def printText (j : Json) : String := String.ofList (print F j)

mutual

def Json.depth : Json → Nat
  | .arr xs => Json.depthElems xs + 1
  | .obj ms => Json.depthMembers ms + 1
  | _ => 0

def Json.depthElems : List Json → Nat
  | [] => 0
  | x :: xs => max x.depth (Json.depthElems xs)

def Json.depthMembers : List (String × Json) → Nat
  | [] => 0
  | (_, value) :: ms => max value.depth (Json.depthMembers ms)

end

/-- The value of the last member with the key, as a map built in order keeps it. -/
def lookup (key : String) : List (String × Json) → Option Json
  | [] => none
  | (k, value) :: ms =>
    match lookup key ms with
    | some later => some later
    | none => if k = key then some value else none

def Json.get? (key : String) : Json → Option Json
  | .obj ms => lookup key ms
  | _ => none

def Json.asStr? : Json → Option String
  | .str s => some s
  | _ => none

def Json.isNull : Json → Bool
  | .null => true
  | _ => false

def Json.asArray? : Json → Option (List Json)
  | .arr xs => some xs
  | _ => none

end TextJson
