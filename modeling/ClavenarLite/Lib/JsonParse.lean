import ClavenarLite.Lib.Bytes
import ClavenarLite.Lib.Json

/-! A parser for JSON text, and the proof that it inverts the printer. Containers
may nest to any depth here; a library's recursion limit is a check on the result. -/

namespace TextJson

open Bytes (hexValue)

def isWhitespace (c : Char) : Bool := c == ' ' || c == '\n' || c == '\t' || c == '\r'

def skipWhitespace (cs : List Char) : List Char := cs.dropWhile isWhitespace

def lexCodeUnit : List Char → Option (Nat × List Char)
  | a :: b :: c :: d :: cs => do
    let a ← hexValue a
    let b ← hexValue b
    let c ← hexValue c
    let d ← hexValue d
    return (((a * 16 + b) * 16 + c) * 16 + d, cs)
  | _ => none

/-- A `\u` escape: a leading surrogate takes the trailing one that follows it. -/
def lexUnicode (cs : List Char) : Option (Char × List Char) := do
  let (high, cs) ← lexCodeUnit cs
  if 0xDC00 ≤ high ∧ high ≤ 0xDFFF then none
  else if 0xD800 ≤ high ∧ high ≤ 0xDBFF then
    match cs with
    | '\\' :: 'u' :: cs => do
      let (low, cs) ← lexCodeUnit cs
      if 0xDC00 ≤ low ∧ low ≤ 0xDFFF then
        return (Char.ofNat (0x10000 + (high - 0xD800) * 0x400 + (low - 0xDC00)), cs)
      else none
    | _ => none
  else return (Char.ofNat high, cs)

def lexChar : List Char → Option (Char × List Char)
  | [] => none
  | '\\' :: cs =>
    match cs with
    | '"' :: cs => some ('"', cs)
    | '\\' :: cs => some ('\\', cs)
    | '/' :: cs => some ('/', cs)
    | 'b' :: cs => some ('\x08', cs)
    | 'f' :: cs => some ('\x0c', cs)
    | 'n' :: cs => some ('\n', cs)
    | 'r' :: cs => some ('\r', cs)
    | 't' :: cs => some ('\t', cs)
    | 'u' :: cs => lexUnicode cs
    | _ => none
  | c :: cs => if c.toNat < 32 then none else some (c, cs)

def parseString : Nat → List Char → Option (List Char × List Char)
  | 0, _ => none
  | fuel + 1, cs =>
    if cs.head? = some '"' then some ([], cs.tail)
    else do
      let (c, cs) ← lexChar cs
      let (s, cs) ← parseString fuel cs
      return (c :: s, cs)

def parseKeyword : List Char → Option (Json × List Char)
  | 'n' :: 'u' :: 'l' :: 'l' :: cs => some (.null, cs)
  | 't' :: 'r' :: 'u' :: 'e' :: cs => some (.bool true, cs)
  | 'f' :: 'a' :: 'l' :: 's' :: 'e' :: cs => some (.bool false, cs)
  | _ => none

variable (F : FloatText)

mutual

def parseValue : Nat → List Char → Option (Json × List Char)
  | 0, _ => none
  | fuel + 1, cs =>
    match skipWhitespace cs with
    | [] => none
    | c :: cs =>
      if c = '"' then do
        let (s, cs) ← parseString (cs.length + 1) cs
        return (.str (String.ofList s), cs)
      else if c = '[' then
        if (skipWhitespace cs).head? = some ']' then some (.arr [], (skipWhitespace cs).tail)
        else do
          let (x, cs) ← parseValue fuel cs
          let (xs, cs) ← parseElems fuel cs
          return (.arr (x :: xs), cs)
      else if c = '{' then
        if (skipWhitespace cs).head? = some '}' then some (.obj [], (skipWhitespace cs).tail)
        else do
          let (m, cs) ← parseMember fuel cs
          let (ms, cs) ← parseMembers fuel cs
          return (.obj (m :: ms), cs)
      else if startsNumber c then do
        let n ← readNumber F ((c :: cs).takeWhile isNumberChar)
        return (.num n, (c :: cs).dropWhile isNumberChar)
      else parseKeyword (c :: cs)

def parseElems : Nat → List Char → Option (List Json × List Char)
  | 0, _ => none
  | fuel + 1, cs =>
    match skipWhitespace cs with
    | ']' :: cs => some ([], cs)
    | ',' :: cs => do
      let (x, cs) ← parseValue fuel cs
      let (xs, cs) ← parseElems fuel cs
      return (x :: xs, cs)
    | _ => none

def parseMember : Nat → List Char → Option ((String × Json) × List Char)
  | 0, _ => none
  | fuel + 1, cs =>
    match skipWhitespace cs with
    | '"' :: cs => do
      let (key, cs) ← parseString (cs.length + 1) cs
      match skipWhitespace cs with
      | ':' :: cs => do
        let (value, cs) ← parseValue fuel cs
        return ((String.ofList key, value), cs)
      | _ => none
    | _ => none

def parseMembers : Nat → List Char → Option (List (String × Json) × List Char)
  | 0, _ => none
  | fuel + 1, cs =>
    match skipWhitespace cs with
    | '}' :: cs => some ([], cs)
    | ',' :: cs => do
      let (m, cs) ← parseMember fuel cs
      let (ms, cs) ← parseMembers fuel cs
      return (m :: ms, cs)
    | _ => none

end

/-- A whole document: one value, and only whitespace after it. Every call to a
parser above consumes a character of the text, so its length is enough fuel. -/
def parse (text : List Char) : Option Json :=
  match parseValue F (2 * text.length + 2) text with
  | some (j, rest) => if skipWhitespace rest = [] then some j else none
  | none => none

theorem toDigits_isDigit (n : Nat) : ∀ c ∈ Nat.toDigits 10 n, c.isDigit = true :=
  fun _ hc => Nat.isDigit_of_mem_toDigits (by decide) (by decide) hc

theorem intOfToken_printInt (i : Int) : intOfToken (printInt i) = i := by
  cases i with
  | negSucc n =>
    simp only [printInt, intOfToken, Nat.ofDigitChars_ten_toDigits]
    omega
  | ofNat n =>
    have hd : ∀ ds, Nat.toDigits 10 n ≠ '-' :: ds := by
      intro ds he
      have := toDigits_isDigit n '-' (by simp [he])
      exact absurd this (by decide)
    unfold printInt intOfToken
    split
    · exact absurd ‹_› (hd _)
    · simp

theorem readInt_printInt (i : Int) : readInt (printInt i) = some i := by
  simp [readInt, intOfToken_printInt]

theorem readNumber_printNumber (n : Number) : readNumber F (printNumber F n) = some n := by
  cases n with
  | int i => simp [readNumber, printNumber, readInt_printInt]
  | float f => simp [readNumber, printNumber, F.print_not_int, F.read_print]

theorem isNumberChar_of_isDigit {c : Char} (h : c.isDigit = true) : isNumberChar c = true := by
  simp [isNumberChar, h]

theorem printNumber_starts (n : Number) :
    ∃ c cs, printNumber F n = c :: cs ∧ startsNumber c = true := by
  cases n with
  | float f => exact F.print_starts f
  | int i =>
    cases i with
    | negSucc n => exact ⟨'-', _, rfl, by decide⟩
    | ofNat n =>
      obtain ⟨c, cs, he⟩ := List.exists_cons_of_ne_nil (Nat.toDigits_ne_nil (n := n) (b := 10))
      refine ⟨c, cs, he, ?_⟩
      simp [startsNumber, toDigits_isDigit n c (by simp [he])]

theorem printNumber_chars (n : Number) : ∀ c ∈ printNumber F n, isNumberChar c = true := by
  have hd : ∀ k, ∀ c ∈ Nat.toDigits 10 k, isNumberChar c = true :=
    fun k c hc => isNumberChar_of_isDigit (toDigits_isDigit k c hc)
  cases n with
  | float f => exact F.print_chars f
  | int i =>
    cases i with
    | ofNat n => exact hd n
    | negSucc n =>
      intro c hc
      rcases List.mem_cons.mp hc with rfl | hc
      · decide
      · exact hd _ c hc

theorem lexChar_control (n : Fin 32) (cs : List Char) :
    lexChar (escapeChar (Char.ofNat n) ++ cs) = some (Char.ofNat n, cs) := by
  fin_cases n <;> rfl

theorem lexChar_escapeChar (c : Char) (cs : List Char) :
    lexChar (escapeChar c ++ cs) = some (c, cs) := by
  by_cases hc : c.toNat < 32
  · simpa [Char.ofNat_toNat] using lexChar_control ⟨c.toNat, hc⟩ cs
  · by_cases hq : c = '"'
    · subst hq; rfl
    · by_cases hb : c = '\\'
      · subst hb; rfl
      · have he : escapeChar c = [c] := by
          have h8 : c ≠ '\x08' := fun e => hc (by subst e; decide)
          have hf : c ≠ '\x0c' := fun e => hc (by subst e; decide)
          have hn : c ≠ '\n' := fun e => hc (by subst e; decide)
          have hr : c ≠ '\r' := fun e => hc (by subst e; decide)
          have ht : c ≠ '\t' := fun e => hc (by subst e; decide)
          simp only [escapeChar, if_neg hq, if_neg hb, if_neg h8, if_neg hf, if_neg hn,
            if_neg hr, if_neg ht, if_neg hc]
        rw [he]
        simp [lexChar, hc]

theorem escapeChar_head (c : Char) (cs : List Char) : (escapeChar c ++ cs).head? ≠ some '"' := by
  by_cases hq : c = '"'
  · subst hq; simp [escapeChar]
  · unfold escapeChar
    split_ifs <;> simp [hq]

theorem parseString_print (s cs : List Char) (fuel : Nat) (hf : s.length < fuel) :
    parseString fuel (printStringRest s ++ cs) = some (s, cs) := by
  induction s generalizing fuel with
  | nil =>
    obtain ⟨fuel, rfl⟩ : ∃ n, fuel = n + 1 := ⟨fuel - 1, by simp at hf; omega⟩
    simp [parseString, printStringRest]
  | cons c s ih =>
    simp only [List.length_cons] at hf
    obtain ⟨fuel, rfl⟩ : ∃ n, fuel = n + 1 := ⟨fuel - 1, by omega⟩
    have hs : printStringRest (c :: s) ++ cs = escapeChar c ++ (printStringRest s ++ cs) := by
      simp [printStringRest]
    rw [hs, parseString, if_neg (escapeChar_head c _), lexChar_escapeChar]
    simp [ih fuel (by omega)]

theorem length_le_printStringRest (s : List Char) : s.length < (printStringRest s).length := by
  induction s with
  | nil => simp [printStringRest]
  | cons c s ih =>
    have hc : 0 < (escapeChar c).length := by
      unfold escapeChar
      split_ifs <;> simp
    simp only [printStringRest, List.flatMap_cons, List.length_append, List.length_cons,
      List.length_nil] at ih ⊢
    omega

def NumberEnds (cs : List Char) : Prop := ∀ c ∈ cs.head?, isNumberChar c = false

theorem takeWhile_number {token cs : List Char} (ht : ∀ c ∈ token, isNumberChar c = true)
    (hc : NumberEnds cs) : (token ++ cs).takeWhile isNumberChar = token := by
  rw [List.takeWhile_append_of_pos ht]
  cases cs with
  | nil => simp
  | cons c cs =>
    have h := hc c (by simp)
    rw [List.takeWhile_cons_of_neg (by simp [h]), List.append_nil]

theorem dropWhile_number {token cs : List Char} (ht : ∀ c ∈ token, isNumberChar c = true)
    (hc : NumberEnds cs) : (token ++ cs).dropWhile isNumberChar = cs := by
  rw [List.dropWhile_append_of_pos ht]
  cases cs with
  | nil => rfl
  | cons c cs =>
    have h := hc c (by simp)
    rw [List.dropWhile_cons_of_neg (by simp [h])]

theorem skipWhitespace_cons {c : Char} (h : isWhitespace c = false) (cs : List Char) :
    skipWhitespace (c :: cs) = c :: cs := by
  simp [skipWhitespace, h]

theorem startsNumber_facts {c : Char} (h : startsNumber c = true) :
    isWhitespace c = false ∧ c ≠ '"' ∧ c ≠ '[' ∧ c ≠ '{' ∧ c ≠ ']' := by
  have hne : ∀ d, startsNumber d = false → c ≠ d := by
    intro d hd he
    rw [he, hd] at h
    exact Bool.noConfusion h
  refine ⟨?_, hne _ (by decide), hne _ (by decide), hne _ (by decide), hne _ (by decide)⟩
  simp only [isWhitespace, Bool.or_eq_false_iff, beq_eq_false_iff_ne]
  exact ⟨⟨⟨hne _ (by decide), hne _ (by decide)⟩, hne _ (by decide)⟩, hne _ (by decide)⟩

/-! Whitespace may stand before an element, before a closing bracket and after a
colon. The compact text has none of it, an indented one has it everywhere. -/

theorem skipWhitespace_append {ws : List Char} (h : ∀ c ∈ ws, isWhitespace c = true)
    (cs : List Char) : skipWhitespace (ws ++ cs) = skipWhitespace cs :=
  List.dropWhile_append_of_pos h

structure Layout where
  line : Nat → List Char
  colon : List Char
  line_blank : ∀ n, ∀ c ∈ line n, isWhitespace c = true
  colon_blank : ∀ c ∈ colon, isWhitespace c = true

def Layout.compact : Layout where
  line _ := []
  colon := []
  line_blank := by simp
  colon_blank := by simp

/-- Two blanks for each level. -/
def Layout.pretty : Layout where
  line n := '\n' :: List.replicate (2 * n) ' '
  colon := [' ']
  line_blank := by
    intro n c hc
    rcases List.mem_cons.mp hc with rfl | hc
    · decide
    · rw [(List.mem_replicate.mp hc).2]
      decide
  colon_blank := by simp; decide

variable (L : Layout)

mutual

/-- The text of a document at a level of nesting. -/
def layOut (n : Nat) : Json → List Char
  | .null => print F .null
  | .bool b => print F (.bool b)
  | .num m => print F (.num m)
  | .str s => print F (.str s)
  | .arr [] => ['[', ']']
  | .arr (x :: xs) => '[' :: (L.line (n + 1) ++ (layOut (n + 1) x ++ layElems n xs))
  | .obj [] => ['{', '}']
  | .obj ((key, value) :: ms) =>
    '{' :: (L.line (n + 1) ++ '"' :: (printStringRest key.toList ++
      ':' :: (L.colon ++ (layOut (n + 1) value ++ layMembers n ms))))

def layElems (n : Nat) : List Json → List Char
  | [] => L.line n ++ [']']
  | x :: xs => ',' :: (L.line (n + 1) ++ (layOut (n + 1) x ++ layElems n xs))

def layMembers (n : Nat) : List (String × Json) → List Char
  | [] => L.line n ++ ['}']
  | (key, value) :: ms =>
    ',' :: (L.line (n + 1) ++ '"' :: (printStringRest key.toList ++
      ':' :: (L.colon ++ (layOut (n + 1) value ++ layMembers n ms))))

end

theorem layElems_compact {n : Nat} {xs : List Json}
    (h : ∀ x ∈ xs, layOut F Layout.compact (n + 1) x = print F x) :
    layElems F Layout.compact n xs = printElems F xs := by
  induction xs with
  | nil => rfl
  | cons x xs ih =>
    rw [layElems, printElems, h x List.mem_cons_self,
      ih fun y hy => h y (List.mem_cons_of_mem x hy)]
    rfl

theorem layMembers_compact {n : Nat} {ms : List (String × Json)}
    (h : ∀ m ∈ ms, layOut F Layout.compact (n + 1) m.2 = print F m.2) :
    layMembers F Layout.compact n ms = printMembers F ms := by
  induction ms with
  | nil => rfl
  | cons m ms ih =>
    obtain ⟨key, value⟩ := m
    have hv : layOut F Layout.compact (n + 1) value = print F value :=
      h (key, value) List.mem_cons_self
    rw [layMembers, printMembers, hv, ih fun m hm => h m (List.mem_cons_of_mem _ hm)]
    rfl

/-- Without whitespace the text is the compact one. -/
theorem layOut_compact (j : Json) : ∀ n, layOut F Layout.compact n j = print F j := by
  induction j using Json.induct with
  | null => exact fun _ => rfl
  | bool b => exact fun _ => rfl
  | num n => exact fun _ => rfl
  | str s => exact fun _ => rfl
  | arr xs ih =>
    intro n
    cases xs with
    | nil => rfl
    | cons x xs =>
      rw [layOut, print, ih x List.mem_cons_self (n + 1),
        layElems_compact F fun y hy => ih y (List.mem_cons_of_mem x hy) (n + 1)]
      rfl
  | obj ms ih =>
    intro n
    cases ms with
    | nil => rfl
    | cons m ms =>
      obtain ⟨key, value⟩ := m
      have hv : layOut F Layout.compact (n + 1) value = print F value :=
        ih (key, value) List.mem_cons_self (n + 1)
      rw [layOut, print, hv,
        layMembers_compact F fun m hm => ih m (List.mem_cons_of_mem _ hm) (n + 1)]
      rfl

variable {L}

theorem parseValue_blank {ws : List Char} (h : ∀ c ∈ ws, isWhitespace c = true) (fuel : Nat)
    (cs : List Char) : parseValue F fuel (ws ++ cs) = parseValue F fuel cs := by
  cases fuel with
  | zero => rw [parseValue, parseValue]
  | succ fuel => rw [parseValue, parseValue, skipWhitespace_append h]

theorem parseElems_blank {ws : List Char} (h : ∀ c ∈ ws, isWhitespace c = true) (fuel : Nat)
    (cs : List Char) : parseElems F fuel (ws ++ cs) = parseElems F fuel cs := by
  cases fuel with
  | zero => rw [parseElems, parseElems]
  | succ fuel => rw [parseElems, parseElems, skipWhitespace_append h]

theorem parseMember_blank {ws : List Char} (h : ∀ c ∈ ws, isWhitespace c = true) (fuel : Nat)
    (cs : List Char) : parseMember F fuel (ws ++ cs) = parseMember F fuel cs := by
  cases fuel with
  | zero => rw [parseMember, parseMember]
  | succ fuel => rw [parseMember, parseMember, skipWhitespace_append h]

theorem parseMembers_blank {ws : List Char} (h : ∀ c ∈ ws, isWhitespace c = true) (fuel : Nat)
    (cs : List Char) : parseMembers F fuel (ws ++ cs) = parseMembers F fuel cs := by
  cases fuel with
  | zero => rw [parseMembers, parseMembers]
  | succ fuel => rw [parseMembers, parseMembers, skipWhitespace_append h]

theorem layOut_head (n : Nat) (j : Json) :
    ∃ c cs, layOut F L n j = c :: cs ∧ isWhitespace c = false ∧ c ≠ ']' := by
  cases j with
  | null => exact ⟨_, _, rfl, by decide, by decide⟩
  | bool b => cases b <;> exact ⟨_, _, rfl, by decide, by decide⟩
  | str s => exact ⟨_, _, rfl, by decide, by decide⟩
  | num n =>
    obtain ⟨c, cs, he, hc⟩ := printNumber_starts F n
    have hf := startsNumber_facts hc
    exact ⟨c, cs, he, hf.1, hf.2.2.2.2⟩
  | arr xs => cases xs <;> exact ⟨_, _, rfl, by decide, by decide⟩
  | obj ms => cases ms <;> exact ⟨_, _, rfl, by decide, by decide⟩

theorem numberEnds_cons {c : Char} (h : isNumberChar c = false) (cs : List Char) :
    NumberEnds (c :: cs) := by
  intro d hd
  obtain rfl := Option.some.inj hd
  exact h

theorem isNumberChar_blank {c : Char} (h : isWhitespace c = true) : isNumberChar c = false := by
  simp only [isWhitespace, Bool.or_eq_true, beq_iff_eq] at h
  rcases h with ((rfl | rfl) | rfl) | rfl <;> decide

/-- Whitespace before a closing bracket ends a number, and so does the bracket. -/
theorem numberEnds_close (n : Nat) {c : Char} (hc : isNumberChar c = false) (cs : List Char) :
    NumberEnds (L.line n ++ c :: cs) := by
  cases hl : L.line n with
  | nil => exact numberEnds_cons hc cs
  | cons w ws =>
    have hw := L.line_blank n w (by rw [hl]; exact List.mem_cons_self)
    exact numberEnds_cons (isNumberChar_blank hw) _

theorem numberEnds_layElems (n : Nat) (xs : List Json) (cs : List Char) :
    NumberEnds (layElems F L n xs ++ cs) := by
  cases xs with
  | nil =>
    rw [layElems, List.append_assoc]
    exact numberEnds_close n (by decide) cs
  | cons x xs => exact numberEnds_cons (by decide) _

theorem numberEnds_layMembers (n : Nat) (ms : List (String × Json)) (cs : List Char) :
    NumberEnds (layMembers F L n ms ++ cs) := by
  cases ms with
  | nil =>
    rw [layMembers, List.append_assoc]
    exact numberEnds_close n (by decide) cs
  | cons m ms => exact numberEnds_cons (by decide) _

variable (L)

def Reads (n : Nat) (j : Json) : Prop :=
  ∀ fuel cs, 2 * (layOut F L n j).length < fuel → NumberEnds cs →
    parseValue F fuel (layOut F L n j ++ cs) = some (j, cs)

variable {L}

theorem parseElems_layOut {n : Nat} {xs : List Json} (h : ∀ x ∈ xs, Reads F L (n + 1) x)
    (fuel : Nat) (cs : List Char) (hf : 2 * (layElems F L n xs).length < fuel) :
    parseElems F fuel (layElems F L n xs ++ cs) = some (xs, cs) := by
  induction xs generalizing fuel with
  | nil =>
    obtain ⟨fuel, rfl⟩ : ∃ n, fuel = n + 1 := ⟨fuel - 1, by omega⟩
    rw [layElems, List.append_assoc, parseElems_blank F (L.line_blank n)]
    simp [parseElems, skipWhitespace_cons (show isWhitespace ']' = false by decide)]
  | cons x xs ih =>
    simp only [layElems, List.length_cons, List.length_append] at hf
    obtain ⟨fuel, rfl⟩ : ∃ n, fuel = n + 1 := ⟨fuel - 1, by omega⟩
    have hx := h x (by simp) fuel (layElems F L n xs ++ cs) (by omega)
      (numberEnds_layElems F n xs cs)
    have hxs := ih (fun y hy => h y (by simp [hy])) fuel (by omega)
    simp only [layElems, List.cons_append, List.append_assoc, parseElems,
      skipWhitespace_cons (show isWhitespace ',' = false by decide),
      parseValue_blank F (L.line_blank (n + 1)), hx, hxs,
      Option.bind_eq_bind, Option.bind_some, Option.pure_def]

theorem parseMember_layOut {n : Nat} (key : String) {value : Json} (h : Reads F L n value)
    (fuel : Nat) (cs : List Char) (hf : 2 * (layOut F L n value).length + 1 < fuel)
    (hc : NumberEnds cs) :
    parseMember F fuel ('"' :: (printStringRest key.toList ++
      ':' :: (L.colon ++ (layOut F L n value ++ cs)))) = some ((key, value), cs) := by
  obtain ⟨fuel, rfl⟩ : ∃ n, fuel = n + 1 := ⟨fuel - 1, by omega⟩
  have hk := parseString_print key.toList (':' :: (L.colon ++ (layOut F L n value ++ cs)))
    ((printStringRest key.toList ++ ':' :: (L.colon ++ (layOut F L n value ++ cs))).length + 1)
    (by have := length_le_printStringRest key.toList; simp; omega)
  have hv := h fuel cs (by omega) hc
  simp only [parseMember, skipWhitespace_cons (show isWhitespace '"' = false by decide), hk,
    skipWhitespace_cons (show isWhitespace ':' = false by decide),
    parseValue_blank F L.colon_blank, hv, String.ofList_toList,
    Option.bind_eq_bind, Option.bind_some, Option.pure_def]

theorem parseMembers_layOut {n : Nat} {ms : List (String × Json)}
    (h : ∀ m ∈ ms, Reads F L (n + 1) m.2) (fuel : Nat) (cs : List Char)
    (hf : 2 * (layMembers F L n ms).length < fuel) :
    parseMembers F fuel (layMembers F L n ms ++ cs) = some (ms, cs) := by
  induction ms generalizing fuel with
  | nil =>
    obtain ⟨fuel, rfl⟩ : ∃ n, fuel = n + 1 := ⟨fuel - 1, by omega⟩
    rw [layMembers, List.append_assoc, parseMembers_blank F (L.line_blank n)]
    simp [parseMembers, skipWhitespace_cons (show isWhitespace '}' = false by decide)]
  | cons m ms ih =>
    obtain ⟨key, value⟩ := m
    simp only [layMembers, List.length_cons, List.length_append] at hf
    obtain ⟨fuel, rfl⟩ : ∃ n, fuel = n + 1 := ⟨fuel - 1, by omega⟩
    have hv : Reads F L (n + 1) value := h (key, value) (by simp)
    have hm := parseMember_layOut F key hv fuel (layMembers F L n ms ++ cs) (by omega)
      (numberEnds_layMembers F n ms cs)
    have hms := ih (fun n hn => h n (by simp [hn])) fuel (by omega)
    simp only [layMembers, List.cons_append, List.append_assoc, parseMembers,
      skipWhitespace_cons (show isWhitespace ',' = false by decide),
      parseMember_blank F (L.line_blank (n + 1)), hm, hms,
      Option.bind_eq_bind, Option.bind_some, Option.pure_def]

theorem reads_number (n : Nat) (m : Number) : Reads F L n (.num m) := by
  intro fuel cs hf hc
  obtain ⟨fuel, rfl⟩ : ∃ n, fuel = n + 1 := ⟨fuel - 1, by omega⟩
  obtain ⟨c, rest, he, hs⟩ := printNumber_starts F m
  obtain ⟨hw, hq, hb, ho, _⟩ := startsNumber_facts hs
  have ht := takeWhile_number (printNumber_chars F m) hc
  have hd := dropWhile_number (printNumber_chars F m) hc
  rw [he] at ht hd
  have hn := readNumber_printNumber F m
  rw [he] at hn
  simp only [layOut, print, he, List.cons_append, parseValue, skipWhitespace_cons hw, if_neg hq,
    if_neg hb, if_neg ho, hs, if_true]
  rw [← List.cons_append, ht, hd, hn]
  rfl

theorem reads_string (n : Nat) (s : String) : Reads F L n (.str s) := by
  intro fuel cs hf hc
  obtain ⟨fuel, rfl⟩ : ∃ n, fuel = n + 1 := ⟨fuel - 1, by omega⟩
  have hs := parseString_print s.toList cs ((printStringRest s.toList ++ cs).length + 1)
    (by have := length_le_printStringRest s.toList; simp; omega)
  simp only [layOut, print, List.cons_append, parseValue, if_true, hs, String.ofList_toList,
    skipWhitespace_cons (show isWhitespace '"' = false by decide),
    Option.bind_eq_bind, Option.bind_some, Option.pure_def]

theorem reads_array {n : Nat} {xs : List Json} (h : ∀ x ∈ xs, Reads F L (n + 1) x) :
    Reads F L n (.arr xs) := by
  intro fuel cs hf hc
  obtain ⟨fuel, rfl⟩ : ∃ n, fuel = n + 1 := ⟨fuel - 1, by omega⟩
  have hw := skipWhitespace_cons (show isWhitespace '[' = false by decide)
  have hq : ¬ '[' = '"' := by decide
  cases xs with
  | nil =>
    simp [layOut, parseValue, hw, skipWhitespace_cons (show isWhitespace ']' = false by decide)]
  | cons x xs =>
    simp only [layOut, List.length_cons, List.length_append] at hf
    have hx := h x (by simp) fuel (layElems F L n xs ++ cs) (by omega)
      (numberEnds_layElems F n xs cs)
    have hr : ∀ y ∈ xs, Reads F L (n + 1) y := fun y hy => h y (by simp [hy])
    have hxs := parseElems_layOut F hr fuel cs (by omega)
    obtain ⟨c, rest, he, hcw, hcb⟩ := layOut_head F (L := L) (n + 1) x
    have hne : (skipWhitespace (L.line (n + 1) ++
        (layOut F L (n + 1) x ++ (layElems F L n xs ++ cs)))).head? ≠ some ']' := by
      rw [skipWhitespace_append (L.line_blank (n + 1)), he, List.cons_append,
        skipWhitespace_cons hcw]
      simpa using hcb
    simp only [layOut, List.cons_append, List.append_assoc, parseValue, hw, if_neg hq, if_true,
      if_neg hne, parseValue_blank F (L.line_blank (n + 1)), hx, hxs, Option.bind_eq_bind,
      Option.bind_some, Option.pure_def]

theorem reads_object {n : Nat} {ms : List (String × Json)}
    (h : ∀ m ∈ ms, Reads F L (n + 1) m.2) : Reads F L n (.obj ms) := by
  intro fuel cs hf hc
  obtain ⟨fuel, rfl⟩ : ∃ n, fuel = n + 1 := ⟨fuel - 1, by omega⟩
  have hw := skipWhitespace_cons (show isWhitespace '{' = false by decide)
  have hq : ¬ '{' = '"' := by decide
  have hb : ¬ '{' = '[' := by decide
  cases ms with
  | nil =>
    simp [layOut, parseValue, hw, skipWhitespace_cons (show isWhitespace '}' = false by decide)]
  | cons m ms =>
    obtain ⟨key, value⟩ := m
    simp only [layOut, List.length_cons, List.length_append] at hf
    have hv : Reads F L (n + 1) value := h (key, value) (by simp)
    have hr : ∀ m ∈ ms, Reads F L (n + 1) m.2 := fun m hm => h m (by simp [hm])
    have hm := parseMember_layOut F key hv fuel (layMembers F L n ms ++ cs) (by omega)
      (numberEnds_layMembers F n ms cs)
    have hms := parseMembers_layOut F hr fuel cs (by omega)
    simp only [layOut, List.cons_append, List.append_assoc, parseValue, hw, if_neg hq, if_neg hb,
      if_true, skipWhitespace_append (L.line_blank (n + 1)),
      skipWhitespace_cons (show isWhitespace '"' = false by decide), List.head?_cons,
      Option.some.injEq, (show ('"' = '}') = False by decide), if_false,
      parseMember_blank F (L.line_blank (n + 1)), hm, hms,
      Option.bind_eq_bind, Option.bind_some, Option.pure_def]

theorem reads (j : Json) : ∀ n, Reads F L n j := by
  induction j using Json.induct with
  | null =>
    intro n fuel cs hf _
    obtain ⟨fuel, rfl⟩ : ∃ n, fuel = n + 1 := ⟨fuel - 1, by omega⟩
    simp [layOut, print, parseValue, skipWhitespace_cons (show isWhitespace 'n' = false by decide),
      parseKeyword, show startsNumber 'n' = false by decide]
  | bool b =>
    intro n fuel cs hf _
    obtain ⟨fuel, rfl⟩ : ∃ n, fuel = n + 1 := ⟨fuel - 1, by omega⟩
    cases b
    · simp [layOut, print, parseValue,
        skipWhitespace_cons (show isWhitespace 'f' = false by decide), parseKeyword,
        show startsNumber 'f' = false by decide]
    · simp [layOut, print, parseValue,
        skipWhitespace_cons (show isWhitespace 't' = false by decide), parseKeyword,
        show startsNumber 't' = false by decide]
  | num m => exact fun n => reads_number F n m
  | str s => exact fun n => reads_string F n s
  | arr xs ih => exact fun n => reads_array F fun x hx => ih x hx (n + 1)
  | obj ms ih => exact fun n => reads_object F fun m hm => ih m hm (n + 1)

variable (L) in
/-- A document is read back from its text in any layout, with whitespace after it. -/
theorem parse_layOut (j : Json) {ws : List Char} (hw : ∀ c ∈ ws, isWhitespace c = true) :
    parse F (layOut F L 0 j ++ ws) = some j := by
  have hends : NumberEnds ws := fun c hc => isNumberChar_blank (hw c (List.mem_of_mem_head? hc))
  have h := reads F (L := L) j 0 (2 * (layOut F L 0 j ++ ws).length + 2) ws
    (by rw [List.length_append]; omega) hends
  have hrest : skipWhitespace ws = [] := by
    have hdrop : (ws ++ []).dropWhile isWhitespace = [] := List.dropWhile_append_of_pos hw
    rwa [List.append_nil] at hdrop
  rw [parse, h]
  simp [hrest]

theorem parse_print (j : Json) : parse F (print F j) = some j := by
  have h := parse_layOut F Layout.compact j (show ∀ c ∈ [], isWhitespace c = true by simp)
  rwa [layOut_compact, List.append_nil] at h

theorem print_injective : Function.Injective (print F) := by
  intro i j h
  have hi := parse_print F i
  rw [h, parse_print] at hi
  exact (Option.some.inj hi).symm

/-! Printing the bits of a float in decimal satisfies the laws of a float text, so
they can be assumed together. -/

def readBits (cs : List Char) : Option Binary64 :=
  let digits := cs.takeWhile Char.isDigit
  let bits := BitVec.ofNat 64 (Nat.ofDigitChars 10 digits 0)
  if h : cs = digits ++ ['e', '0'] ∧ bits.extractLsb 62 52 ≠ 2047#11 then some ⟨bits, h.2⟩
  else none

theorem not_mem_printInt (i : Int) : 'e' ∉ printInt i := by
  have hd : ∀ n, 'e' ∉ Nat.toDigits 10 n := by
    intro n h
    exact absurd (toDigits_isDigit n 'e' h) (by decide)
  cases i with
  | ofNat n => exact hd n
  | negSucc n =>
    intro h
    rcases List.mem_cons.mp h with h | h
    · exact absurd h (by decide)
    · exact hd _ h

theorem takeWhile_toDigits (n : Nat) :
    (Nat.toDigits 10 n ++ ['e', '0']).takeWhile Char.isDigit = Nat.toDigits 10 n := by
  rw [List.takeWhile_append_of_pos (toDigits_isDigit n)]
  simp

def bitsText : FloatText where
  print f := Nat.toDigits 10 f.bits.toNat ++ ['e', '0']
  read := readBits
  print_starts := by
    intro f
    obtain ⟨c, cs, he⟩ := List.exists_cons_of_ne_nil
      (Nat.toDigits_ne_nil (n := f.bits.toNat) (b := 10))
    refine ⟨c, cs ++ ['e', '0'], by rw [he]; rfl, ?_⟩
    simp [startsNumber, toDigits_isDigit _ c (by rw [he]; simp)]
  print_chars := by
    intro f c hc
    rcases List.mem_append.mp hc with hc | hc
    · exact isNumberChar_of_isDigit (toDigits_isDigit _ c hc)
    · rcases List.mem_cons.mp hc with rfl | hc
      · decide
      · rw [List.mem_singleton.mp hc]
        decide
  print_not_int := by
    intro f
    apply if_neg
    intro h
    apply not_mem_printInt (intOfToken (Nat.toDigits 10 f.bits.toNat ++ ['e', '0']))
    rw [h]
    simp
  read_print := by
    intro f
    have hf := f.finite
    simp only [readBits, takeWhile_toDigits, Nat.ofDigitChars_ten_toDigits, BitVec.ofNat_toNat,
      BitVec.setWidth_eq]
    rw [dif_pos ⟨trivial, hf⟩]

end TextJson
