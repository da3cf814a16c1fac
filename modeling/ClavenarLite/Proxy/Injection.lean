import ClavenarLite.Lib.JsonSource
import ClavenarLite.Lib.Text
import ClavenarLite.Proxy.Heuristics

/-! What the injection scan sees of a request: it reads the source of the body,
and the upstream acts on the decoded strings. -/

namespace ClavenarLite

open Bytes Text TextJson

mutual

/-- The keys and the strings of a document, at any depth. -/
def textsOf : Json → List String
  | .str s => [s]
  | .arr xs => textsOfElems xs
  | .obj ms => textsOfMembers ms
  | _ => []

def textsOfElems : List Json → List String
  | [] => []
  | x :: xs => textsOf x ++ textsOfElems xs

def textsOfMembers : List (String × Json) → List String
  | [] => []
  | (key, value) :: ms => key :: textsOf value ++ textsOfMembers ms

end

def HasNeedle (lowercase : String → String) (text : String) : Prop :=
  ∃ needle ∈ injectionNeedles, contains needle (lowercase text) = true

/-- A decoded string of the document has a needle. -/
def Flagged (lowercase : String → String) (v : Value) : Prop :=
  ∃ text ∈ textsOf v.json, HasNeedle lowercase text

/-- A needle is written out between the quotes of one of the body's literals. -/
def SpelledOut (lowercase : String → String) (body : Octets) : Prop :=
  ∃ source ∈ literals (fromUtf8Lossy body).toList, HasNeedle lowercase (String.ofList source)

/-- What the scan relies on of the standard library's `to_lowercase`: a quotation
mark is no part of a word, and ASCII is mapped character by character. -/
structure LowercaseLaws (lowercase : String → String) : Prop where
  quote : ∀ s t, lowercase (s ++ "\"" ++ t) = lowercase s ++ "\"" ++ lowercase t
  ascii : ∀ s : String, (∀ c ∈ s.toList, c.toNat < 128) → lowercase s = toAsciiLowercase s

theorem needle_quote {needle : String} (h : needle ∈ injectionNeedles) : '"' ∉ needle.toList := by
  have hall : injectionNeedles.all fun n => !n.toList.contains '"' := by decide +kernel
  simpa using List.all_eq_true.mp hall needle h

/-- A needle is never written outside a literal. -/
theorem needle_outside {needle : String} (h : needle ∈ injectionNeedles) :
    ∃ c ∈ needle.toList, isOutside c = false := by
  have hall : injectionNeedles.all fun n => n.toList.any fun c => !isOutside c := by decide +kernel
  simpa using List.all_eq_true.mp hall needle h

theorem infix_separator {α : Type} {l a b : List α} {sep : α} (hsep : sep ∉ l)
    (h : l <:+: a ++ sep :: b) : l <:+: a ∨ l <:+: b := by
  obtain ⟨s, t, h⟩ := h
  rcases List.append_eq_append_iff.mp h with ⟨c, hc, _⟩ | ⟨c, hc, ht⟩
  · exact Or.inl ⟨s, c, hc.symm⟩
  cases c with
  | nil => exact Or.inl ⟨s, [], by rw [List.append_nil, hc, List.append_nil]⟩
  | cons d c =>
    obtain ⟨rfl, rfl⟩ := List.cons.inj ht
    rcases List.append_eq_append_iff.mp hc with ⟨e, _, he⟩ | ⟨e, _, he⟩
    · exact absurd (by rw [he]; simp) hsep
    · cases e with
      | nil => exact absurd (by rw [← List.nil_append l, ← he]; simp) hsep
      | cons d' e =>
        obtain ⟨-, rfl⟩ := List.cons.inj he
        exact Or.inr ⟨e, t, by simp⟩

theorem outside_ascii {c : Char} (h : isOutside c = true) : c.toNat < 128 := by
  simp only [isOutside, isWhitespace, isNumberChar, Bool.or_eq_true, List.contains_cons,
    List.contains_nil, beq_iff_eq, Bool.or_false] at h
  rcases h with ((h | h) | h) | h
  · rcases h with ((rfl | rfl) | rfl) | rfl <;> decide
  · rcases h with ((((h | rfl) | rfl) | rfl) | rfl) | rfl
    · simp only [Char.isDigit, Bool.and_eq_true, decide_eq_true_eq, ge_iff_le] at h
      exact Nat.lt_of_le_of_lt (UInt32.le_iff_toNat_le.mp h.2) (by decide)
    all_goals decide
  · rcases h with rfl | rfl | rfl | rfl | rfl | rfl <;> decide
  · rcases h with rfl | rfl | rfl | rfl | rfl | rfl | rfl | rfl <;> decide

theorem outside_lower {c : Char} (h : isOutside c = true) : isOutside c.toLower = true := by
  have hall : ∀ n : Fin 128, isOutside (Char.ofNat n) = true →
      isOutside (Char.ofNat n).toLower = true := by decide +kernel
  have hc := hall ⟨c.toNat, outside_ascii h⟩
  rw [Char.ofNat_toNat] at hc
  exact hc h

variable {lowercase : String → String}

def lowerChars (lowercase : String → String) (cs : List Char) : List Char :=
  (lowercase (String.ofList cs)).toList

theorem lowerChars_quote (laws : LowercaseLaws lowercase) (cs ds : List Char) :
    lowerChars lowercase (cs ++ '"' :: ds) =
      lowerChars lowercase cs ++ '"' :: lowerChars lowercase ds := by
  have hsplit : String.ofList (cs ++ '"' :: ds) = String.ofList cs ++ "\"" ++ String.ofList ds := by
    rw [← String.toList_inj]
    simp
  simp [lowerChars, hsplit, laws.quote]

theorem lowerChars_outside (laws : LowercaseLaws lowercase) {cs : List Char}
    (h : ∀ c ∈ cs, isOutside c = true) :
    ∀ c ∈ lowerChars lowercase cs, isOutside c = true := by
  have hascii := laws.ascii (String.ofList cs) (fun c hc => outside_ascii (h c (by simpa using hc)))
  intro c hc
  rw [lowerChars, hascii, toAsciiLowercase, String.toList_ofList, String.toList_ofList] at hc
  obtain ⟨d, hd, rfl⟩ := List.mem_map.mp hc
  exact outside_lower (h d hd)

/-- A needle in a text of pieces is in one of its literals: between them are no
needles, and a needle has no quotation mark. -/
theorem needle_in_literal (laws : LowercaseLaws lowercase) {needle : String}
    (hn : needle ∈ injectionNeedles) {pieces : List Piece} (hp : ∀ p ∈ pieces, p.Proper)
    {out : List Char} (hout : ∀ c ∈ out, isOutside c = true)
    (h : needle.toList <:+: lowerChars lowercase (out ++ pieces.flatMap Piece.text)) :
    ∃ source ∈ pieces.filterMap Piece.source?, needle.toList <:+: lowerChars lowercase source := by
  have hfree : ∀ {cs : List Char}, (∀ c ∈ cs, isOutside c = true) →
      ¬ needle.toList <:+: lowerChars lowercase cs := by
    intro cs hcs hin
    obtain ⟨c, hc, hfalse⟩ := needle_outside hn
    rw [lowerChars_outside laws hcs c (hin.subset hc)] at hfalse
    exact Bool.noConfusion hfalse
  induction pieces generalizing out with
  | nil =>
    rw [List.flatMap_nil, List.append_nil] at h
    exact absurd h (hfree hout)
  | cons p ps ih =>
    have hps := fun q hq => hp q (List.mem_cons_of_mem p hq)
    have hproper := hp p List.mem_cons_self
    cases p with
    | plain c =>
      rw [List.flatMap_cons, Piece.text, ← List.append_assoc] at h
      have hout' : ∀ d ∈ out ++ [c], isOutside d = true := by
        intro d hd
        rcases List.mem_append.mp hd with hd | hd
        · exact hout d hd
        · rw [List.mem_singleton.mp hd]
          exact hproper
      exact ih hps hout' h
    | literal source =>
      have htext : out ++ (Piece.literal source :: ps).flatMap Piece.text =
          out ++ '"' :: (source ++ '"' :: ([] ++ ps.flatMap Piece.text)) := by
        simp [Piece.text]
      rw [htext, lowerChars_quote laws, lowerChars_quote laws] at h
      rcases infix_separator (needle_quote hn) h with h | h
      · exact absurd h (hfree hout)
      rcases infix_separator (needle_quote hn) h with h | h
      · exact ⟨source, List.mem_cons_self, h⟩
      · obtain ⟨s, hs, h⟩ := ih hps (fun c hc => absurd hc List.not_mem_nil) h
        exact ⟨s, List.mem_cons_of_mem source hs, h⟩

theorem literal_within (laws : LowercaseLaws lowercase) {pieces : List Piece}
    {source : List Char} (h : source ∈ pieces.filterMap Piece.source?) :
    lowerChars lowercase source <:+: lowerChars lowercase (pieces.flatMap Piece.text) := by
  obtain ⟨p, hp, hsource⟩ := List.mem_filterMap.mp h
  cases p with
  | plain c => cases hsource
  | literal s =>
    obtain rfl : s = source := Option.some.inj hsource
    obtain ⟨before, after, rfl⟩ := List.append_of_mem hp
    have htext : (before ++ Piece.literal s :: after).flatMap Piece.text =
        before.flatMap Piece.text ++ '"' :: (s ++ '"' :: after.flatMap Piece.text) := by
      simp [Piece.text]
    rw [htext, lowerChars_quote laws, lowerChars_quote laws]
    exact ⟨lowerChars lowercase (before.flatMap Piece.text) ++ ['"'],
      '"' :: lowerChars lowercase (after.flatMap Piece.text), by simp⟩

theorem utf8_of_fromUtf8 {bs : Octets} {s : String} (h : fromUtf8 bs = some s) : utf8 s = bs := by
  unfold fromUtf8 String.fromUTF8? at h
  split_ifs at h
  obtain rfl := Option.some.inj h
  rfl

/-- A body that is read as a value is made of proper pieces. -/
theorem fromSlice_pieces {F : FloatText} {body : Octets} {v : Value}
    (h : fromSlice F body = some v) :
    ∃ pieces : List Piece, (fromUtf8Lossy body).toList = pieces.flatMap Piece.text ∧
      ∀ p ∈ pieces, p.Proper := by
  obtain ⟨text, htext, h⟩ := Option.bind_eq_some_iff.mp h
  obtain ⟨j, hj, -⟩ := Option.bind_eq_some_iff.mp h
  rw [← utf8_of_fromUtf8 htext, fromUtf8Lossy_utf8]
  exact parse_pieces hj

/-- The scan finds a needle in a body exactly if a literal of the body spells it out. -/
theorem hasNeedle_iff {F : FloatText} (laws : LowercaseLaws lowercase) {body : Octets} {v : Value}
    (h : fromSlice F body = some v) :
    HasNeedle lowercase (fromUtf8Lossy body) ↔ SpelledOut lowercase body := by
  obtain ⟨pieces, htext, hp⟩ := fromSlice_pieces h
  have hbody : (lowercase (fromUtf8Lossy body)).toList =
      lowerChars lowercase (pieces.flatMap Piece.text) := by
    rw [lowerChars, ← htext, String.ofList_toList]
  unfold HasNeedle SpelledOut HasNeedle contains
  rw [htext, literals_pieces hp, hbody]
  constructor
  · rintro ⟨needle, hn, hin⟩
    have hout : ∀ c ∈ ([] : List Char), isOutside c = true := fun c hc => absurd hc List.not_mem_nil
    obtain ⟨source, hsource, hin⟩ := needle_in_literal laws hn hp hout (of_decide_eq_true hin)
    exact ⟨source, hsource, needle, hn, decide_eq_true hin⟩
  · rintro ⟨source, hsource, needle, hn, hin⟩
    exact ⟨needle, hn, decide_eq_true ((of_decide_eq_true hin).trans (literal_within laws hsource))⟩

theorem inspect_detected (lowercase : String → String) (toolType text : String) :
    (inspect lowercase toolType text).injectionDetected = true ↔ HasNeedle lowercase text := by
  show (!(detectInjection lowercase text).isEmpty) = true ↔ _
  rw [Bool.not_eq_true', List.isEmpty_eq_false_iff, Ne, detectInjection, List.filter_eq_nil_iff]
  simp [HasNeedle]

theorem inspect_unauthorized {toolType text : String}
    (h : (inspect lowercase toolType text).injectionDetected = true) :
    (inspect lowercase toolType text).authorized = false := by
  have hd : (!(detectInjection lowercase text).isEmpty) = true := h
  show (!(!(detectInjection lowercase text).isEmpty) && _) = false
  rw [hd]
  rfl

/-- A flagged body is detected and refused exactly if one of its literals spells a
needle out: the scan reads no escape. -/
theorem injection_detected_iff (F : FloatText) (laws : LowercaseLaws lowercase) (toolType : String)
    {body : Octets} {v : Value} (hbody : fromSlice F body = some v) :
    (Flagged lowercase v →
      (inspect lowercase toolType (fromUtf8Lossy body)).injectionDetected = true ∧
        (inspect lowercase toolType (fromUtf8Lossy body)).authorized = false) ↔
      (Flagged lowercase v → SpelledOut lowercase body) := by
  refine imp_congr_right fun _ => ?_
  rw [inspect_detected, hasNeedle_iff laws hbody]
  refine and_iff_left_of_imp fun hspelled => ?_
  exact inspect_unauthorized ((inspect_detected _ _ _).mpr ((hasNeedle_iff laws hbody).mpr hspelled))

theorem toAsciiLowercase_laws : LowercaseLaws toAsciiLowercase where
  quote := by
    intro s t
    rw [← String.toList_inj]
    simp [toAsciiLowercase]
  ascii := fun _ _ => rfl

/-- A tool call whose argument writes a letter of a needle as an escape. -/
def evasiveCall : String :=
  "\x7b\"method\":\"tools/call\",\"params\":\x7b\"name\":\"lookup\"," ++
  "\"arguments\":\x7b\"q\":\"\\u006aailbreak\"\x7d\x7d\x7d"

theorem evasiveCall_flagged :
    ∃ v, fromSlice bitsText (utf8 evasiveCall) = some v ∧ Flagged toAsciiLowercase v := by
  have heval : ((fromStr bitsText evasiveCall).any fun v => (textsOf v.json).any fun text =>
      injectionNeedles.any fun needle => contains needle (toAsciiLowercase text)) = true := by
    decide +kernel
  obtain ⟨v, hv, hflag⟩ := (Option.any_eq_true _ _).mp heval
  obtain ⟨text, htext, hneedle⟩ := List.any_eq_true.mp hflag
  refine ⟨v, ?_, text, htext, List.any_eq_true.mp hneedle⟩
  rw [fromSlice, fromUtf8_utf8, Option.bind_some, hv]

theorem injection_detected_iff_evasive :
    ∃ v, fromSlice bitsText (utf8 evasiveCall) = some v ∧
      ((Flagged toAsciiLowercase v →
        (inspect toAsciiLowercase "lookup" (fromUtf8Lossy (utf8 evasiveCall))).injectionDetected =
            true ∧
          (inspect toAsciiLowercase "lookup" (fromUtf8Lossy (utf8 evasiveCall))).authorized =
            false) ↔
        (Flagged toAsciiLowercase v → SpelledOut toAsciiLowercase (utf8 evasiveCall))) := by
  obtain ⟨v, hv, -⟩ := evasiveCall_flagged
  exact ⟨v, hv, injection_detected_iff bitsText toAsciiLowercase_laws "lookup" hv⟩

/-- The call is flagged, and the heuristics let it through. -/
theorem escaped_needle_passes :
    ∃ v, fromSlice bitsText (utf8 evasiveCall) = some v ∧ Flagged toAsciiLowercase v ∧
      (inspect toAsciiLowercase "lookup" (fromUtf8Lossy (utf8 evasiveCall))).injectionDetected =
        false ∧
      (inspect toAsciiLowercase "lookup" (fromUtf8Lossy (utf8 evasiveCall))).authorized = true := by
  obtain ⟨v, hv, hflag⟩ := evasiveCall_flagged
  rw [fromUtf8Lossy_utf8]
  exact ⟨v, hv, hflag, by decide +kernel, by decide +kernel⟩

end ClavenarLite
