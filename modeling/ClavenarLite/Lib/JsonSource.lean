import ClavenarLite.Lib.JsonParse
import Mathlib.Data.List.TakeWhile

/-! The source of a JSON text: its string literals as they are written, before any
escape is decoded, and the characters between them. -/

namespace TextJson

open Bytes (hexValue)

inductive Scan
  | outside
  | inside (source : List Char)
  | escaped (source : List Char)

/-- What stands between the quotes of every string literal. -/
def scan : Scan → List Char → List (List Char)
  | _, [] => []
  | .outside, c :: cs => if c = '"' then scan (.inside []) cs else scan .outside cs
  | .inside source, c :: cs =>
    if c = '"' then source :: scan .outside cs
    else if c = '\\' then scan (.escaped (source ++ [c])) cs
    else scan (.inside (source ++ [c])) cs
  | .escaped source, c :: cs => scan (.inside (source ++ [c])) cs

def literals (text : List Char) : List (List Char) := scan .outside text

example : literals ['[', '"', '\\', '"', '"', ',', '"', 'a', '"', ']'] = [['\\', '"'], ['a']] := by
  decide

/-- The characters of a document outside its string literals. -/
def isOutside (c : Char) : Bool :=
  isWhitespace c || isNumberChar c || ['[', ']', '{', '}', ',', ':'].contains c ||
    ['t', 'r', 'u', 'f', 'a', 'l', 's', 'n'].contains c

inductive Piece
  | plain (c : Char)
  | literal (source : List Char)

def Piece.text : Piece → List Char
  | .plain c => [c]
  | .literal source => '"' :: (source ++ ['"'])

def Piece.source? : Piece → Option (List Char)
  | .plain _ => none
  | .literal source => some source

/-- The scan takes the source for the whole of a literal. -/
def Closes (source : List Char) : Prop :=
  ∀ start rest, scan (.inside start) (source ++ '"' :: rest) = (start ++ source) :: scan .outside rest

def Piece.Proper : Piece → Prop
  | .plain c => isOutside c = true
  | .literal source => Closes source

/-- The text up to the rest is made of proper pieces. -/
def Lexed (cs rest : List Char) : Prop :=
  ∃ pieces : List Piece, cs = pieces.flatMap Piece.text ++ rest ∧ ∀ p ∈ pieces, p.Proper

theorem Lexed.refl (cs : List Char) : Lexed cs cs := ⟨[], rfl, fun _ hp => absurd hp List.not_mem_nil⟩

theorem Lexed.trans {cs ds es : List Char} (h : Lexed cs ds) (h' : Lexed ds es) : Lexed cs es := by
  obtain ⟨ps, rfl, hps⟩ := h
  obtain ⟨qs, rfl, hqs⟩ := h'
  refine ⟨ps ++ qs, by rw [List.flatMap_append, List.append_assoc], fun p hp => ?_⟩
  exact (List.mem_append.mp hp).elim (hps p) (hqs p)

theorem Lexed.plain {c : Char} (hc : isOutside c = true) (cs : List Char) : Lexed (c :: cs) cs :=
  ⟨[.plain c], rfl, fun p hp => by rw [List.mem_singleton.mp hp]; exact hc⟩

theorem Lexed.literal {source : List Char} (h : Closes source) (cs : List Char) :
    Lexed ('"' :: (source ++ '"' :: cs)) cs :=
  ⟨[.literal source], by simp [Piece.text], fun p hp => by rw [List.mem_singleton.mp hp]; exact h⟩

theorem Lexed.all {ds : List Char} (h : ∀ c ∈ ds, isOutside c = true) (cs : List Char) :
    Lexed (ds ++ cs) cs := by
  induction ds with
  | nil => exact Lexed.refl cs
  | cons d ds ih =>
    exact (Lexed.plain (h d List.mem_cons_self) _).trans
      (ih fun c hc => h c (List.mem_cons_of_mem d hc))

theorem literals_pieces {pieces : List Piece} (h : ∀ p ∈ pieces, p.Proper) :
    literals (pieces.flatMap Piece.text) = pieces.filterMap Piece.source? := by
  induction pieces with
  | nil => rfl
  | cons p ps ih =>
    have hps := ih fun q hq => h q (List.mem_cons_of_mem p hq)
    have hp := h p List.mem_cons_self
    unfold literals at hps ⊢
    cases p with
    | plain c =>
      have hout : isOutside c = true := hp
      have hc : c ≠ '"' := by
        rintro rfl
        exact absurd hout (by decide)
      simp [Piece.text, Piece.source?, scan, hc, hps, List.filterMap_cons]
    | literal source =>
      have hscan := hp [] (ps.flatMap Piece.text)
      simp only [List.nil_append] at hscan
      simp [Piece.text, Piece.source?, scan, hscan, hps]

/-- A unit of a literal's source: the scan passes over it, and the literal goes on. -/
def Passes (unit : List Char) : Prop :=
  ∀ start rest, scan (.inside start) (unit ++ rest) = scan (.inside (start ++ unit)) rest

theorem Passes.plain {c : Char} (hq : c ≠ '"') (hb : c ≠ '\\') : Passes [c] := by
  intro start rest
  simp [scan, hq, hb]

theorem Passes.escape (c : Char) : Passes ['\\', c] := by
  intro start rest
  simp [scan]

theorem Passes.append {u v : List Char} (hu : Passes u) (hv : Passes v) : Passes (u ++ v) := by
  intro start rest
  rw [List.append_assoc, hu, hv, List.append_assoc]

theorem closes_nil : Closes [] := by
  intro start rest
  simp [scan]

theorem Passes.closes {u v : List Char} (hu : Passes u) (hv : Closes v) : Closes (u ++ v) := by
  intro start rest
  rw [List.append_assoc, hu, hv, List.append_assoc]

theorem hexValue_plain {c : Char} {n : Nat} (h : hexValue c = some n) : Passes [c] := by
  refine Passes.plain ?_ ?_
  · rintro rfl
    exact absurd h (by simp [hexValue])
  · rintro rfl
    exact absurd h (by simp [hexValue])

theorem lexCodeUnit_source {cs rest : List Char} {n : Nat} (h : lexCodeUnit cs = some (n, rest)) :
    ∃ u, cs = u ++ rest ∧ Passes u := by
  unfold lexCodeUnit at h
  split at h
  · rename_i a b c d cs
    simp only [Option.bind_eq_bind, Option.bind_eq_some_iff] at h
    obtain ⟨_, ha, _, hb, _, hc, _, hd, h⟩ := h
    obtain ⟨-, rfl⟩ := Prod.mk.inj (Option.some.inj h)
    exact ⟨[a, b, c, d], rfl, (hexValue_plain ha).append ((hexValue_plain hb).append
      ((hexValue_plain hc).append (hexValue_plain hd)))⟩
  · cases h

theorem lexUnicode_source {cs rest : List Char} {c : Char} (h : lexUnicode cs = some (c, rest)) :
    ∃ u, cs = u ++ rest ∧ Passes u := by
  simp only [lexUnicode, Option.bind_eq_bind, Option.bind_eq_some_iff] at h
  obtain ⟨⟨high, cs'⟩, hhigh, h⟩ := h
  obtain ⟨u, rfl, hu⟩ := lexCodeUnit_source hhigh
  simp only at h
  split_ifs at h
  · split at h
    · rename_i ds
      simp only [Option.bind_eq_some_iff] at h
      obtain ⟨⟨low, ds'⟩, hlow, h⟩ := h
      obtain ⟨v, rfl, hv⟩ := lexCodeUnit_source hlow
      simp only at h
      split_ifs at h
      obtain ⟨-, rfl⟩ := Prod.mk.inj (Option.some.inj h)
      exact ⟨u ++ (['\\', 'u'] ++ v), by simp, hu.append ((Passes.escape 'u').append hv)⟩
    · cases h
  · obtain ⟨-, rfl⟩ := Prod.mk.inj (Option.some.inj h)
    exact ⟨u, rfl, hu⟩

theorem lexChar_source {cs rest : List Char} {c : Char} (h : lexChar cs = some (c, rest))
    (hq : cs.head? ≠ some '"') : ∃ u, cs = u ++ rest ∧ Passes u := by
  unfold lexChar at h
  split at h
  · cases h
  · split at h
    case h_9 =>
      obtain ⟨u, rfl, hu⟩ := lexUnicode_source h
      exact ⟨['\\', 'u'] ++ u, rfl, (Passes.escape 'u').append hu⟩
    case h_10 => cases h
    all_goals
      obtain ⟨-, rfl⟩ := Prod.mk.inj (Option.some.inj h)
      exact ⟨_, rfl, Passes.escape _⟩
  · rename_i d ds hb
    split_ifs at h
    obtain ⟨-, rfl⟩ := Prod.mk.inj (Option.some.inj h)
    refine ⟨[d], rfl, Passes.plain ?_ ?_⟩
    · rintro rfl
      exact hq rfl
    · rintro rfl
      exact hb rfl

theorem parseString_source {fuel : Nat} {cs rest s : List Char}
    (h : parseString fuel cs = some (s, rest)) :
    ∃ source, cs = source ++ '"' :: rest ∧ Closes source := by
  induction fuel generalizing cs s with
  | zero => cases h
  | succ fuel ih =>
    rw [parseString] at h
    by_cases hq : cs.head? = some '"'
    · rw [if_pos hq] at h
      obtain ⟨-, rfl⟩ := Prod.mk.inj (Option.some.inj h)
      exact ⟨[], (List.cons_head?_tail hq).symm, closes_nil⟩
    · rw [if_neg hq] at h
      simp only [Option.bind_eq_bind, Option.bind_eq_some_iff] at h
      obtain ⟨⟨c, ds⟩, hc, ⟨s', ds'⟩, hs, h⟩ := h
      obtain ⟨-, rfl⟩ := Prod.mk.inj (Option.some.inj h)
      obtain ⟨u, rfl, hu⟩ := lexChar_source hc hq
      obtain ⟨v, rfl, hv⟩ := ih hs
      exact ⟨u ++ v, by rw [List.append_assoc], hu.closes hv⟩

theorem parseString_lexed {fuel : Nat} {cs rest s : List Char}
    (h : parseString fuel cs = some (s, rest)) : Lexed ('"' :: cs) rest := by
  obtain ⟨source, rfl, hsource⟩ := parseString_source h
  exact Lexed.literal hsource rest

theorem skipWhitespace_lexed (cs : List Char) : Lexed cs (skipWhitespace cs) := by
  have hall : ∀ c ∈ cs.takeWhile isWhitespace, isOutside c = true := fun c hc => by
    simp [isOutside, List.mem_takeWhile_imp hc]
  have h := Lexed.all hall (skipWhitespace cs)
  rwa [skipWhitespace, List.takeWhile_append_dropWhile] at h

theorem number_lexed (cs : List Char) : Lexed cs (cs.dropWhile isNumberChar) := by
  have hall : ∀ c ∈ cs.takeWhile isNumberChar, isOutside c = true := fun c hc => by
    simp [isOutside, List.mem_takeWhile_imp hc]
  have h := Lexed.all hall (cs.dropWhile isNumberChar)
  rwa [List.takeWhile_append_dropWhile] at h

theorem keyword_lexed {cs rest : List Char} {j : Json} (h : parseKeyword cs = some (j, rest)) :
    Lexed cs rest := by
  have hwords : ∀ word : List Char, word.all isOutside = true → Lexed (word ++ rest) rest :=
    fun _ hw => Lexed.all (List.all_eq_true.mp hw) rest
  unfold parseKeyword at h
  split at h
  · obtain ⟨-, rfl⟩ := Prod.mk.inj (Option.some.inj h)
    exact hwords ['n', 'u', 'l', 'l'] (by decide)
  · obtain ⟨-, rfl⟩ := Prod.mk.inj (Option.some.inj h)
    exact hwords ['t', 'r', 'u', 'e'] (by decide)
  · obtain ⟨-, rfl⟩ := Prod.mk.inj (Option.some.inj h)
    exact hwords ['f', 'a', 'l', 's', 'e'] (by decide)
  · cases h

variable (F : FloatText)

/-- What every parser of the block consumes with the fuel is made of pieces. -/
structure ConsumesPieces (fuel : Nat) : Prop where
  value : ∀ {cs j rest}, parseValue F fuel cs = some (j, rest) → Lexed cs rest
  elems : ∀ {cs xs rest}, parseElems F fuel cs = some (xs, rest) → Lexed cs rest
  member : ∀ {cs m rest}, parseMember F fuel cs = some (m, rest) → Lexed cs rest
  members : ∀ {cs ms rest}, parseMembers F fuel cs = some (ms, rest) → Lexed cs rest

variable {F}

theorem skipped_lexed {c : Char} {cs ds rest : List Char} (h : skipWhitespace cs = c :: ds)
    (hc : Lexed (c :: ds) rest) : Lexed cs rest :=
  (h ▸ skipWhitespace_lexed cs).trans hc

/-- A container that is closed at once. -/
theorem closed_lexed {open' close : Char} (ho : isOutside open' = true)
    (hc : isOutside close = true) {cs : List Char}
    (h : (skipWhitespace cs).head? = some close) :
    Lexed (open' :: cs) (skipWhitespace cs).tail := by
  have hcs := skipWhitespace_lexed cs
  rw [← List.cons_head?_tail h] at hcs
  exact (Lexed.plain ho cs).trans (hcs.trans (Lexed.plain hc _))

theorem parseValue_lexed {fuel : Nat} (ih : ConsumesPieces F fuel) {cs rest : List Char} {j : Json}
    (h : parseValue F (fuel + 1) cs = some (j, rest)) : Lexed cs rest := by
  rw [parseValue] at h
  split at h
  · cases h
  rename_i c ds hskip
  refine skipped_lexed hskip ?_
  by_cases hq : c = '"'
  · rw [if_pos hq] at h
    simp only [Option.bind_eq_bind, Option.bind_eq_some_iff] at h
    obtain ⟨⟨s, es⟩, hs, h⟩ := h
    obtain ⟨-, rfl⟩ := Prod.mk.inj (Option.some.inj h)
    rw [hq]
    exact parseString_lexed hs
  rw [if_neg hq] at h
  by_cases hb : c = '['
  · rw [if_pos hb] at h
    rw [hb]
    by_cases he : (skipWhitespace ds).head? = some ']'
    · rw [if_pos he] at h
      obtain ⟨-, rfl⟩ := Prod.mk.inj (Option.some.inj h)
      exact closed_lexed (by decide) (by decide) he
    · rw [if_neg he] at h
      simp only [Option.bind_eq_bind, Option.bind_eq_some_iff] at h
      obtain ⟨⟨x, es⟩, hx, ⟨xs, fs⟩, hxs, h⟩ := h
      obtain ⟨-, rfl⟩ := Prod.mk.inj (Option.some.inj h)
      exact (Lexed.plain (by decide) ds).trans ((ih.value hx).trans (ih.elems hxs))
  rw [if_neg hb] at h
  by_cases ho : c = '{'
  · rw [if_pos ho] at h
    rw [ho]
    by_cases he : (skipWhitespace ds).head? = some '}'
    · rw [if_pos he] at h
      obtain ⟨-, rfl⟩ := Prod.mk.inj (Option.some.inj h)
      exact closed_lexed (by decide) (by decide) he
    · rw [if_neg he] at h
      simp only [Option.bind_eq_bind, Option.bind_eq_some_iff] at h
      obtain ⟨⟨m, es⟩, hm, ⟨ms, fs⟩, hms, h⟩ := h
      obtain ⟨-, rfl⟩ := Prod.mk.inj (Option.some.inj h)
      exact (Lexed.plain (by decide) ds).trans ((ih.member hm).trans (ih.members hms))
  rw [if_neg ho] at h
  by_cases hn : startsNumber c = true
  · rw [if_pos hn] at h
    simp only [Option.bind_eq_bind, Option.bind_eq_some_iff] at h
    obtain ⟨n, -, h⟩ := h
    obtain ⟨-, rfl⟩ := Prod.mk.inj (Option.some.inj h)
    exact number_lexed _
  · rw [if_neg hn] at h
    exact keyword_lexed h

theorem parseElems_lexed {fuel : Nat} (ih : ConsumesPieces F fuel) {cs rest : List Char}
    {xs : List Json} (h : parseElems F (fuel + 1) cs = some (xs, rest)) : Lexed cs rest := by
  rw [parseElems] at h
  split at h
  · rename_i ds hskip
    obtain ⟨-, rfl⟩ := Prod.mk.inj (Option.some.inj h)
    exact skipped_lexed hskip (Lexed.plain (by decide) _)
  · rename_i ds hskip
    simp only [Option.bind_eq_bind, Option.bind_eq_some_iff] at h
    obtain ⟨⟨x, es⟩, hx, ⟨xs', fs⟩, hxs, h⟩ := h
    obtain ⟨-, rfl⟩ := Prod.mk.inj (Option.some.inj h)
    exact skipped_lexed hskip
      ((Lexed.plain (by decide) ds).trans ((ih.value hx).trans (ih.elems hxs)))
  · cases h

theorem parseMember_lexed {fuel : Nat} (ih : ConsumesPieces F fuel) {cs rest : List Char}
    {m : String × Json} (h : parseMember F (fuel + 1) cs = some (m, rest)) : Lexed cs rest := by
  rw [parseMember] at h
  split at h
  · rename_i ds hskip
    simp only [Option.bind_eq_bind, Option.bind_eq_some_iff] at h
    obtain ⟨⟨key, es⟩, hkey, h⟩ := h
    refine skipped_lexed hskip ((parseString_lexed hkey).trans ?_)
    simp only at h
    split at h
    · rename_i fs hcolon
      simp only [Option.bind_eq_some_iff] at h
      obtain ⟨⟨value, gs⟩, hvalue, h⟩ := h
      obtain ⟨-, rfl⟩ := Prod.mk.inj (Option.some.inj h)
      exact skipped_lexed hcolon ((Lexed.plain (by decide) fs).trans (ih.value hvalue))
    · cases h
  · cases h

theorem parseMembers_lexed {fuel : Nat} (ih : ConsumesPieces F fuel) {cs rest : List Char}
    {ms : List (String × Json)} (h : parseMembers F (fuel + 1) cs = some (ms, rest)) :
    Lexed cs rest := by
  rw [parseMembers] at h
  split at h
  · rename_i ds hskip
    obtain ⟨-, rfl⟩ := Prod.mk.inj (Option.some.inj h)
    exact skipped_lexed hskip (Lexed.plain (by decide) _)
  · rename_i ds hskip
    simp only [Option.bind_eq_bind, Option.bind_eq_some_iff] at h
    obtain ⟨⟨m, es⟩, hm, ⟨ms', fs⟩, hms, h⟩ := h
    obtain ⟨-, rfl⟩ := Prod.mk.inj (Option.some.inj h)
    exact skipped_lexed hskip
      ((Lexed.plain (by decide) ds).trans ((ih.member hm).trans (ih.members hms)))
  · cases h

theorem consumesPieces (fuel : Nat) : ConsumesPieces F fuel := by
  induction fuel with
  | zero =>
    constructor
    all_goals
      intro cs x rest h
      cases h
  | succ fuel ih =>
    exact ⟨parseValue_lexed ih, parseElems_lexed ih, parseMember_lexed ih, parseMembers_lexed ih⟩

/-- A text that is read as a document is made of proper pieces. -/
theorem parse_pieces {text : List Char} {j : Json} (h : parse F text = some j) :
    ∃ pieces : List Piece, text = pieces.flatMap Piece.text ∧ ∀ p ∈ pieces, p.Proper := by
  unfold parse at h
  split at h
  · rename_i k rest hvalue
    split_ifs at h with hrest
    have hend := skipWhitespace_lexed rest
    rw [hrest] at hend
    obtain ⟨pieces, htext, hp⟩ := ((consumesPieces _).value hvalue).trans hend
    exact ⟨pieces, by rw [htext, List.append_nil], hp⟩
  · cases h

end TextJson
