import RosSchema.Line.Ros1
import RosSchema.Proofs.Line.FieldType
import RosSchema.Proofs.Line.Lines

/-!
# Headers

One grammar of lines takes the first word before a comment as the name of a header, the other the longest
name after which the header is finished. A header line with a type name is read back as that name by both,
and a line without the mark of headers is none. `Grammar.Sound` collects what the grammars have in common.
-/

namespace RosSchema.Line

open RosSchema.Text
open Reader
open Ros2 (isTypePart)

def headerMark : List Char := "MSG:".toList

def headerLine (name : List Char) : List Char := "MSG: ".toList ++ name

theorem headerMark_headerLine (name : List Char) : headerMark <+: headerLine name :=
  ⟨' ' :: name, rfl⟩

namespace Ros2

@[simp] theorem isHeaderFinished_nil : isHeaderFinished [] = true := by decide

/-- A front of a text without a space, after which a header is finished. -/
structure EndsHeader (cs name rest : List Char) : Prop where
  eq : cs = name ++ rest
  ne_nil : name ≠ []
  space : ' ' ∉ name
  finished : isHeaderFinished rest = true

theorem longestName?_cons {c : Char} (hc : c ≠ ' ') (rest : List Char) : longestName? (c :: rest) =
    (((longestName? rest).map (c :: ·)) <|> if isHeaderFinished rest then some [c] else none) := by
  rw [longestName?, if_neg (by simpa using hc)]
  cases longestName? rest <;> rfl

theorem EndsHeader.longestName?_ne_none {cs name rest : List Char} (h : EndsHeader cs name rest) :
    longestName? cs ≠ none := by
  obtain ⟨rfl, hne, hspace, hfinished⟩ := h
  induction name with
  | nil => exact absurd rfl hne
  | cons c name ih =>
    obtain ⟨hc, hname⟩ := List.ne_and_not_mem_of_not_mem_cons hspace
    rw [List.cons_append, longestName?_cons hc.symm]
    cases name with
    | nil => simp [hfinished]
    | cons d name =>
      obtain ⟨longer, hlonger⟩ := Option.ne_none_iff_exists'.1 (ih (List.cons_ne_nil d name) hname)
      rw [hlonger]
      simp

/-- The longest name is a front after which no other one can be. -/
theorem longestName?_eq_some {cs name : List Char} : longestName? cs = some name ↔
    ∃ rest, EndsHeader cs name rest ∧ longestName? rest = none := by
  induction cs generalizing name with
  | nil =>
    refine ⟨fun h => (by cases h), ?_⟩
    rintro ⟨rest, h, -⟩
    exact absurd (List.append_eq_nil_iff.1 h.eq.symm).1 h.ne_nil
  | cons c cs ih =>
    by_cases hc : c = ' '
    · subst hc
      refine ⟨fun h => (by cases h), ?_⟩
      rintro ⟨rest, h, -⟩
      obtain ⟨d, more, rfl⟩ := List.exists_cons_of_ne_nil h.ne_nil
      exact absurd (List.cons.inj h.eq).1 (List.ne_and_not_mem_of_not_mem_cons h.space).1
    rw [longestName?_cons hc]
    constructor
    · intro h
      cases hlonger : longestName? cs with
      | some longer =>
        obtain rfl : c :: longer = name := by simpa [hlonger] using h
        obtain ⟨rest, ⟨rfl, -, hspace, hfinished⟩, hnone⟩ := ih.1 hlonger
        exact ⟨rest, ⟨rfl, List.cons_ne_nil c longer,
          List.not_mem_cons_of_ne_of_not_mem (Ne.symm hc) hspace, hfinished⟩, hnone⟩
      | none =>
        obtain ⟨hfinished, rfl⟩ : isHeaderFinished cs = true ∧ [c] = name := by simpa [hlonger] using h
        exact ⟨cs, ⟨rfl, List.cons_ne_nil c [], by simpa using Ne.symm hc, hfinished⟩, hlonger⟩
    · rintro ⟨rest, ⟨heq, hne, hspace, hfinished⟩, hnone⟩
      obtain ⟨d, more, rfl⟩ := List.exists_cons_of_ne_nil hne
      obtain ⟨rfl, rfl⟩ := List.cons.inj heq
      cases more with
      | nil => simp [hnone, hfinished]
      | cons d more =>
        have hmore := (List.ne_and_not_mem_of_not_mem_cons hspace).2
        rw [ih.2 ⟨rest, ⟨rfl, List.cons_ne_nil d more, hmore, hfinished⟩, hnone⟩]
        rfl

/-- All of a text without a space is its longest name. -/
theorem longestName?_of_not_mem {name : List Char} (hne : name ≠ []) (h : ' ' ∉ name) :
    longestName? name = some name :=
  longestName?_eq_some.2 ⟨[], ⟨(List.append_nil name).symm, hne, h, isHeaderFinished_nil⟩, rfl⟩

theorem header?_headerLine (name : List Char) :
    header? (headerLine name) = (longestName? name).map (some ∘ String.ofList) := by
  have hp : "MSG: ".toList.isPrefixOf? (headerLine name) = some name :=
    isPrefixOf?_eq_some.2 rfl
  rw [header?, hp]
  rfl

theorem header?_eq_none {line : List Char} (h : ¬ headerMark <+: line) : header? line = none := by
  cases hp : "MSG: ".toList.isPrefixOf? line with
  | none => rw [header?, hp]; rfl
  | some rest =>
    obtain rfl := isPrefixOf?_eq_some.1 hp
    exact absurd (headerMark_headerLine rest) h

/-- A header gives the longest name on its line. -/
theorem header?_eq_some {line : List Char} {name : String} : header? line = some (some name) ↔
    ∃ cs rest, line = headerLine cs ∧ EndsHeader cs name.toList rest ∧ longestName? rest = none := by
  rw [header?, Option.map_eq_some_iff]
  constructor
  · rintro ⟨word, hword, hname⟩
    obtain ⟨cs, hcs, hlongest⟩ := Option.bind_eq_some_iff.1 hword
    obtain rfl := Option.some.inj hname
    obtain ⟨rest, hends, hnone⟩ := longestName?_eq_some.1 hlongest
    rw [String.toList_ofList]
    exact ⟨cs, rest, isPrefixOf?_eq_some.1 hcs, hends, hnone⟩
  · rintro ⟨cs, rest, rfl, hends, hnone⟩
    refine ⟨name.toList, Option.bind_eq_some_iff.2 ⟨cs, isPrefixOf?_eq_some.2 rfl, ?_⟩, ?_⟩
    · exact longestName?_eq_some.2 ⟨rest, hends, hnone⟩
    · rw [Function.comp_apply, String.ofList_toList]

theorem trim_headerLine (name : List Char) :
    trim (headerLine name) = headerMark ++ trimRight (' ' :: name) := by
  have hhead : trimLeft (headerLine name) = headerLine name :=
    trimLeft_of_head (by
      rintro c ⟨⟩
      decide)
  rw [trim, hhead]
  exact trimRight_append_cons (by decide) ['M', 'S', 'G'] (' ' :: name)

/-- The line of a name without a space, without the blanks around it, gives the name without the blanks
after it, if it is a header at all. -/
theorem header?_trim_headerLine {name : List Char} (h : ' ' ∉ name) : header? (trim (headerLine name)) =
    if trimRight name = [] then none else some (some (String.ofList (trimRight name))) := by
  rw [trim_headerLine, trimRight_cons]
  split
  · rfl
  · next hne =>
    have hfront : ' ' ∉ trimRight name := fun hm => h ((trimRight_front name).subset hm)
    change header? (headerLine (trimRight name)) = _
    rw [header?_headerLine, longestName?_of_not_mem hne hfront]
    rfl

end Ros2

def isNameChar (c : Char) : Bool := !isBlank c && c != '#'

theorem isNameChar_eq_true {c : Char} : isNameChar c = true ↔ isBlank c = false ∧ c ≠ '#' := by
  simp only [isNameChar, Bool.and_eq_true, Bool.not_eq_true', bne_iff_ne]

theorem isNameChar_eq_false {c : Char} : isNameChar c = false ↔ isBlank c = true ∨ c = '#' := by
  simp only [isNameChar, Bool.and_eq_false_iff, Bool.not_eq_false', bne_eq_false_iff_eq]

/-- The first word of a text stands after its first blanks, and goes on to the next one. -/
theorem firstWord?_eq_some {cs word : List Char} : firstWord? cs = some word ↔
    word ≠ [] ∧ ∃ rest, Splits (!isBlank ·) (trimLeft cs) word rest := by
  rw [firstWord?]
  constructor
  · intro h
    split at h
    · cases h
    · next hne =>
      obtain rfl := Option.some.inj h
      exact ⟨hne, _, splits_iff.2 ⟨rfl, rfl⟩⟩
  · rintro ⟨hne, rest, hsplits⟩
    rw [(splits_iff.1 hsplits).1]
    split
    · exact absurd rfl hne
    · rfl

/-- The first word before a comment stands after blanks, and goes on to a blank or to the comment. -/
theorem firstWord?_before {cs word : List Char} : firstWord? (before '#' cs) = some word ↔
    ∃ blanks rest, cs = blanks ++ (word ++ rest) ∧ (∀ c ∈ blanks, isBlank c = true) ∧ Word isNameChar word ∧
      ∀ c ∈ rest.head?, isNameChar c = false := by
  rw [firstWord?_eq_some]
  constructor
  · rintro ⟨hne, after, hsplits⟩
    have hcut : Splits (· != '#') cs (before '#' cs) (cs.dropWhile (· != '#')) := splits_iff.2 ⟨rfl, rfl⟩
    obtain ⟨blanks, hbefore, hblanks⟩ := exists_append_trimLeft (before '#' cs)
    rw [hsplits.eq] at hbefore
    refine ⟨blanks, after ++ cs.dropWhile (· != '#'), ?_, hblanks, ⟨hne, fun c hc => ?_⟩, fun c hc => ?_⟩
    · conv => lhs; rw [hcut.eq, hbefore]
      simp only [List.append_assoc]
    · refine isNameChar_eq_true.2 ⟨by simpa using hsplits.all c hc, ?_⟩
      have hmem : c ∈ before '#' cs := by
        rw [hbefore]
        simp [hc]
      simpa using hcut.all c hmem
    · rw [isNameChar_eq_false]
      cases after with
      | nil => exact .inr (by simpa using hcut.stops c hc)
      | cons d after => exact .inl (by simpa using hsplits.stops c hc)
  · rintro ⟨blanks, rest, rfl, hblanks, hword, hstops⟩
    have hplain : ∀ c ∈ blanks ++ word, (c != '#') = true := by
      intro c hc
      rw [bne_iff_ne]
      rintro rfl
      rcases List.mem_append.1 hc with hc | hc
      · exact absurd (hblanks _ hc) (by decide)
      · exact absurd (hword.all _ hc) (by decide)
    have hbefore : before '#' (blanks ++ (word ++ rest)) = blanks ++ (word ++ before '#' rest) := by
      rw [← List.append_assoc, before, List.takeWhile_append_of_pos hplain, List.append_assoc]
      rfl
    have hhead : ∀ c ∈ (word ++ before '#' rest).head?, isBlank c = false := by
      obtain ⟨c, more, rfl, hc⟩ := hword.exists_cons
      rintro d ⟨⟩
      exact (isNameChar_eq_true.1 hc).1
    refine ⟨hword.ne_nil, before '#' rest, ?_, fun c hc => ?_, fun c hc => ?_⟩
    · rw [hbefore, trimLeft_append hblanks, trimLeft_of_head hhead]
    · simp [(isNameChar_eq_true.1 (hword.all c hc)).1]
    · have hmark : c ≠ '#' := by simpa using List.mem_takeWhile_imp (List.mem_of_mem_head? hc)
      have hstop := hstops c (head?_of_front (List.takeWhile_prefix _) c hc)
      simp [(isNameChar_eq_false.1 hstop).resolve_right hmark]

namespace Ros1

/-- A header gives the first word before a comment, if there is one. -/
theorem header?_eq_some {line : List Char} {name : String} : header? line = some (some name) ↔
    ∃ blanks rest, line = headerMark ++ (blanks ++ (name.toList ++ rest)) ∧ (∀ c ∈ blanks, isBlank c = true) ∧
      Word isNameChar name.toList ∧ ∀ c ∈ rest.head?, isNameChar c = false := by
  rw [header?, Option.map_eq_some_iff]
  constructor
  · rintro ⟨cs, hcs, hname⟩
    obtain ⟨word, hword, rfl⟩ := Option.map_eq_some_iff.1 hname
    obtain rfl := isPrefixOf?_eq_some.1 hcs
    obtain ⟨blanks, rest, rfl, hblanks, hchars, hstops⟩ := firstWord?_before.1 hword
    simp only [String.toList_ofList]
    exact ⟨blanks, rest, rfl, hblanks, hchars, hstops⟩
  · rintro ⟨blanks, rest, rfl, hblanks, hchars, hstops⟩
    refine ⟨_, isPrefixOf?_eq_some.2 rfl, Option.map_eq_some_iff.2 ⟨name.toList, ?_, String.ofList_toList⟩⟩
    exact firstWord?_before.2 ⟨blanks, rest, rfl, hblanks, hchars, hstops⟩

theorem header?_headerLine {name : List Char} (h : Word isTypePart name) :
    header? (headerLine name) = some (some (String.ofList name)) := by
  have hword : Word isNameChar name := ⟨h.ne_nil, fun c hc => isNameChar_eq_true.2
    ⟨Ros2.isBlank_eq_false_of_isTypePart (h.all c hc), fun hmark => absurd (hmark ▸ h.all c hc) (by decide)⟩⟩
  refine header?_eq_some.2 ⟨[' '], [], ?_, by simp; decide, by rwa [String.toList_ofList], by simp⟩
  rw [String.toList_ofList, List.append_nil]
  rfl

theorem header?_eq_none {line : List Char} (h : ¬ headerMark <+: line) : header? line = none := by
  cases hp : "MSG:".toList.isPrefixOf? line with
  | none => rw [header?, hp]; rfl
  | some rest =>
    obtain rfl := isPrefixOf?_eq_some.1 hp
    exact absurd (List.prefix_append headerMark rest) h

end Ros1

structure Grammar.Sound (g : Grammar) : Prop where
  named : ∀ {name : List Char}, Word isTypePart name →
    g.header? (headerLine name) = some (some (String.ofList name))
  unnamed : ∀ {line : List Char}, ¬ headerMark <+: line → g.header? line = none
  typed : ∀ {line : List Char} {f : Field}, g.field line = .ok f → Word isTypePart f.type.toList
  primitive : ∀ {line : List Char} {f : Field}, g.field line = .ok f → f.isConstant = true →
    f.isComplex = false

theorem sound_ros1 : ros1.Sound where
  named := Ros1.header?_headerLine
  unnamed := Ros1.header?_eq_none
  typed := Ros1.word_type_of_field
  primitive := Ros1.isComplex_of_field

theorem sound_ros2 : ros2.Sound where
  named := fun {name} h => by
    have hspace : ' ' ∉ name := fun hm => absurd (h.all ' ' hm) (by decide)
    change Ros2.header? (headerLine name) = _
    rw [Ros2.header?_headerLine, Ros2.longestName?_of_not_mem h.ne_nil hspace]
    rfl
  unnamed := Ros2.header?_eq_none
  typed := Ros2.word_type_of_field
  primitive := Ros2.isComplex_of_field

/-! ## Definitions of blocks -/

theorem Grammar.definition_eq_ok {g : Grammar} {block : List (List Char)} {d : Definition} :
    g.definition block = .ok d ↔ d.name = (block.filterMap g.header?).getLast?.join ∧
      List.Forall₂ (fun line f => g.field line = .ok f)
        (block.filter fun line => (g.header? line).isNone) d.fields := by
  rw [Grammar.definition, Steps.bind_eq_ok]
  constructor
  · rintro ⟨fields, h, hd⟩
    cases hd
    exact ⟨rfl, Steps.mapM_eq_ok_iff.1 h⟩
  · rintro ⟨hname, hfields⟩
    exact ⟨d.fields, Steps.mapM_eq_ok_iff.2 hfields, by rw [← hname]; rfl⟩

/-- The fields of all definitions are those of the lines that are neither dividers nor headers. -/
theorem Grammar.fields_of_definitions {g : Grammar} {text : String} {defs : List Definition}
    (h : g.definitions text = .ok defs) : List.Forall₂ (fun line f => g.field line = .ok f)
      (((lines text.toList).filter (!isDivider ·)).filter fun line => (g.header? line).isNone)
      (defs.flatMap (·.fields)) := by
  rw [← flatten_splitOnP, ← blocks_eq, List.filter_flatten, ← List.flatMap_def]
  rw [Grammar.definitions, Steps.mapM_eq_ok_iff] at h
  generalize blocks text = parts at h ⊢
  induction h with
  | nil => exact .nil
  | cons hd _ ih =>
    rw [List.flatMap_cons, List.flatMap_cons]
    exact List.rel_append (Grammar.definition_eq_ok.1 hd).2 ih

/-- A block without headers has no name, and after a header line it has that of the header. -/
theorem Grammar.Sound.definition_cons {g : Grammar} (s : g.Sound) {name : List Char}
    (hname : Word isTypePart name) {block : List (List Char)} {d : Definition}
    (hblock : ∀ line ∈ block, ¬ headerMark <+: line) (h : g.definition block = .ok d) :
    d.name = none ∧
      g.definition (headerLine name :: block) = .ok ⟨some (String.ofList name), d.fields⟩ := by
  have hnone : block.filterMap g.header? = [] :=
    List.filterMap_eq_nil_iff.2 fun line hline => s.unnamed (hblock line hline)
  obtain ⟨hd, hfields⟩ := Grammar.definition_eq_ok.1 h
  refine ⟨by rw [hd, hnone]; rfl, Grammar.definition_eq_ok.2 ⟨?_, ?_⟩⟩
  · rw [List.filterMap_cons_some (s.named hname), hnone]
    rfl
  · rw [List.filter_cons_of_neg (by simp [s.named hname])]
    exact hfields

end RosSchema.Line
