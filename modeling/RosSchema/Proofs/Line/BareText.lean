import RosSchema.Proofs.Line.Field
import RosSchema.Proofs.Literal.Scalars
import RosSchema.Proofs.Literal.Units

/-!
# Bare text

A string without quotes is decoded like one between quotes. An escape stands for fewer characters than it
takes, so such a text is taken as it stands exactly if it has no backslash. This goes for the text alone,
for literals of the types of strings and for the values that lines give their fields.
-/

namespace RosSchema.Literal

open RosSchema.Text (trim)

/-! ## The text that units stand for -/

/-- Units stand for no more characters than they are, and for fewer if one of them is an escape. -/
theorem Units.length_le {quote : Option Char} {cs decoded : List Char} (h : Units quote cs decoded) :
    decoded.length ≤ cs.length ∧ ('\\' ∈ cs → decoded.length < cs.length) := by
  induction h with
  | nil => simp
  | char _ plain _ ih =>
    refine ⟨Nat.succ_le_succ ih.1, fun hmem => Nat.succ_lt_succ (ih.2 ?_)⟩
    exact (List.mem_cons.1 hmem).resolve_left plain.symm
  | escape text escape _ ih =>
    obtain ⟨c, digits, rfl, -, -⟩ := escape.exists_cons
    simp only [List.length_cons, List.length_append]
    omega

/-- Units stand for themselves where none of them is an escape. -/
theorem units_self_iff {cs : List Char} : Units none cs cs ↔ '\\' ∉ cs := by
  constructor
  · intro h hmem
    exact Nat.lt_irrefl _ (h.length_le.2 hmem)
  · intro h
    induction cs with
    | nil => exact .nil
    | cons c cs ih =>
      obtain ⟨hc, hcs⟩ := List.ne_and_not_mem_of_not_mem_cons h
      exact .char (by simp) hc.symm (ih hcs)

/-! ## Decoding -/

theorem decodeString_verbatim {text : List Char} (h : IsBare text) :
    decodeString text = .ok (String.ofList text) ↔ '\\' ∉ text := by
  rw [decodeString_bare h, String.toList_ofList, units_self_iff]

theorem decodeScalar_of_stringType {type : String} (htype : type = "string" ∨ type = "wstring")
    (raw : List Char) : decodeScalar type raw = (decodeString (trim raw)).map .string := by
  rcases htype with rfl | rfl <;> exact decodeScalar_eq _ raw

theorem decodeScalar_verbatim {type : String} (htype : type = "string" ∨ type = "wstring") {raw : List Char}
    (h : IsBare (trim raw)) :
    decodeScalar type raw = .ok (.string (String.ofList (trim raw))) ↔ '\\' ∉ trim raw := by
  rw [decodeScalar_of_stringType htype, Steps.map_eq_ok, ← decodeString_verbatim h]
  simp

end RosSchema.Literal

namespace RosSchema.Line.Ros2

open RosSchema.Literal
open RosSchema.Text (trim)
open Reader

/-! ## Lines -/

def Ending.text? : Ending → Option (List Char)
  | .assigned raw | .default raw => some raw
  | .nothing => none

def Ending.letters : Ending → Char → Bool
  | .assigned _ => Char.isUpper
  | .default _ | .nothing => Char.isLower

def lineValue? (f : Field) : Option Value := f.value <|> f.defaultValue

/-- A declaration of one string, with the text of its value. -/
structure Declaration.GivesString (d : Declaration) (raw : List Char) : Prop where
  type : d.fieldType = "string" ∨ d.fieldType = "wstring"
  scalar : d.array = none
  text : d.ending.text? = some raw

/-- Apart from its literal, the line of a string is in order: its bound is a count, and its name has the
letters of its kind. -/
structure Declaration.IsInOrder (d : Declaration) : Prop where
  bound : ∀ digits ∈ d.bound, (count64? digits).isSome
  name : isNameIn d.ending.letters d.name = true

section Lines

variable {line raw : List Char} {d : Declaration}

theorem ending_of_text? {e : Ending} (h : e.text? = some raw) : e = .assigned raw ∨ e = .default raw := by
  cases e with
  | assigned text => exact .inl (congrArg _ (Option.some.inj h))
  | default text => exact .inr (congrArg _ (Option.some.inj h))
  | nothing => cases h

/-- The line of a string gives the field what its literal is decoded to. -/
theorem lineValue?_of_field (hd : whole? declaration line = some d) (hs : d.GivesString raw) {f : Field}
    (h : field line = .ok f) :
    ∃ v, lineValue? f = some v ∧ decodeScalar d.fieldType (trim raw) = .ok v := by
  obtain ⟨d', hd', hf⟩ := field_eq_ok.1 h
  obtain rfl := Option.some.inj (hd.symm.trans hd')
  obtain ⟨bound, -, array, harray, -, hyields⟩ := Declaration.field_eq_ok.1 hf
  obtain rfl : none = array := by
    rw [hs.scalar] at harray
    exact Except.ok.inj harray
  have htext := hs.text
  cases hyields with
  | constant raw' value ending _ _ _ decoded =>
    rw [ending] at htext
    obtain rfl := Option.some.inj htext
    exact ⟨value, rfl, decoded⟩
  | default raw' value ending _ _ decoded =>
    rw [ending] at htext
    obtain rfl := Option.some.inj htext
    exact ⟨value, rfl, decoded⟩
  | plain ending =>
    rw [ending] at htext
    cases htext

/-- The line of a string that is in order is read if its literal is. -/
theorem exists_field (hd : whole? declaration line = some d) (hs : d.GivesString raw) (ho : d.IsInOrder)
    {v : Value} (hv : decodeScalar d.fieldType (trim raw) = .ok v) : ∃ f, field line = .ok f := by
  have hbound : d.bound.mapM (count line) = .ok (d.bound.bind count64?) := mapM_count_eq_ok.2 ⟨ho.bound, rfl⟩
  have hnone : d.array.mapM (countMark line) = .ok none := by
    rw [hs.scalar]
    rfl
  have hstring : ((d.bound.bind count64?).isSome && d.fieldType != "string" && d.fieldType != "wstring") = false := by
    rcases hs.type with h | h <;> simp [h]
  have hliteral : takesLiteral d.fieldType = true := by rcases hs.type with h | h <;> rw [h] <;> decide
  have hname := ho.name
  have hyields : ∃ f, d.Yields (d.bound.bind count64?) none f := by
    rcases ending_of_text? hs.text with h | h
    · rw [h] at hname
      exact ⟨_, .constant raw v h hname rfl hliteral hv⟩
    · rw [h] at hname
      exact ⟨_, .default raw v h hname hliteral hv⟩
  obtain ⟨f, hf⟩ := hyields
  exact ⟨f, field_eq_ok.2 ⟨d, hd, Declaration.field_eq_ok.2 ⟨_, hbound, none, hnone, hstring, hf⟩⟩⟩

end Lines

/-- Bare text is taken verbatim exactly if it has no backslash: by itself, trimmed for a type of strings, and
on a line, which is then refused for nothing but its bound and its name. -/
theorem verbatim_iff {text : List Char} (hbare : IsBare text) :
    (decodeString text = .ok (String.ofList text) ↔ '\\' ∉ text) ∧
    (∀ type raw, (type = "string" ∨ type = "wstring") → trim raw = text →
      (decodeScalar type raw = .ok (.string (String.ofList text)) ↔ '\\' ∉ text)) ∧
    ∀ line d raw, whole? declaration line = some d → d.GivesString raw → trim raw = text →
      (∀ f, field line = .ok f → (lineValue? f = some (.string (String.ofList text)) ↔ '\\' ∉ text)) ∧
      ('\\' ∉ text → d.IsInOrder → ∃ f, field line = .ok f) := by
  refine ⟨decodeString_verbatim hbare, ?_, ?_⟩
  · rintro type raw htype rfl
    exact decodeScalar_verbatim htype hbare
  rintro line d raw hd hs rfl
  have hverbatim :
      decodeScalar d.fieldType (trim raw) = .ok (.string (String.ofList (trim raw))) ↔ '\\' ∉ trim raw := by
    rw [decodeScalar_of_stringType hs.type, Text.trim_trim, ← decodeScalar_of_stringType hs.type]
    exact decodeScalar_verbatim hs.type hbare
  constructor
  · intro f hf
    obtain ⟨v, hvalue, hdecoded⟩ := lineValue?_of_field hd hs hf
    rw [← hverbatim, hvalue, hdecoded, Option.some.injEq, Except.ok.injEq]
  · intro hplain ho
    exact exists_field hd hs ho (hverbatim.2 hplain)

/-- The text of a constant goes on to the comment. -/
theorem verbatim_of_greeting : IsBare "say 'hi'".toList ∧ ∃ f, field "string S = say 'hi' # there".toList = .ok f ∧
    lineValue? f = some (.string "say 'hi'") := by
  have hd : whole? declaration "string S = say 'hi' # there".toList =
      some ⟨"string".toList, none, none, ['S'], .assigned "say 'hi' ".toList⟩ := by decide +kernel
  have hs : Declaration.GivesString ⟨"string".toList, none, none, ['S'], .assigned "say 'hi' ".toList⟩
      "say 'hi' ".toList := ⟨by decide, rfl, rfl⟩
  have hbare : IsBare "say 'hi'".toList := by
    rintro c ⟨⟩
    decide
  obtain ⟨hvalue, hread⟩ := (verbatim_iff hbare).2.2 _ _ _ hd hs (by decide)
  obtain ⟨f, hf⟩ := hread (by decide) ⟨by simp, by decide⟩
  exact ⟨hbare, f, hf, (hvalue f hf).2 (by decide)⟩

/-- A backslash in bare text starts an escape. -/
theorem not_verbatim_of_lineBreak : IsBare "a\\nb".toList ∧ decodeString "a\\nb".toList = .ok "a\nb" ∧
    ¬ ∀ text, IsBare text → decodeString text = .ok (String.ofList text) := by
  have hbare : IsBare "a\\nb".toList := by
    rintro c ⟨⟩
    decide
  have hunits : Units none "a\\nb".toList "a\nb".toList :=
    .char (by decide) (by decide) <|
    .escape ['n'] (.letter (by decide)) <|
    .char (by decide) (by decide) .nil
  have hdecoded := (decodeString_bare hbare).2 hunits
  refine ⟨hbare, hdecoded, fun h => ?_⟩
  have heq := Except.ok.inj (hdecoded.symm.trans (h _ hbare))
  exact absurd heq (by decide)

end RosSchema.Line.Ros2
