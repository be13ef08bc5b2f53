import RosSchema.Proofs.Idl.Outline
import RosSchema.Proofs.Idl.Printing

/-!
# Types of members

The outline of an accepted document is that of its trees: a member has a word for a declaration as its type
where such a word stands directly before its name or is alone in the brackets of a sequence, and braces stand
only behind the names of modules and structs. `outline_of_nodes` says so.
-/

namespace RosSchema.Idl

open Reader

/-! ## Outlines of trees -/

mutual

def Node.uses : Node → List Use
  | .module _ children => .body "module" :: usesIn children
  | .struct _ children => .body "struct" :: usesIn children
  | .typedef m | .field m | .constant m => typeUses m.type

def usesIn : List Node → List Use
  | [] => []
  | node :: rest => node.uses ++ usesIn rest

end

mutual

def Node.members : Node → List Member
  | .module _ children | .struct _ children => membersIn children
  | .typedef m | .field m | .constant m => [m]

def membersIn : List Node → List Member
  | [] => []
  | node :: rest => node.members ++ membersIn rest

end

theorem type_mem_typeUses {word type : String} :
    .type word ∈ typeUses type ↔ word ∈ declarationWords ∧ type = word := by
  unfold typeUses
  split <;> grind

mutual

/-- A word for a declaration is a type in the outline where it is that of a member. -/
theorem Node.type_mem_uses {word : String} : ∀ node : Node,
    .type word ∈ node.uses ↔ word ∈ declarationWords ∧ ∃ m ∈ node.members, m.type = word
  | .module _ children | .struct _ children => by simpa [Node.uses, Node.members] using type_mem_usesIn children
  | .typedef m | .field m | .constant m => by simpa [Node.uses, Node.members] using type_mem_typeUses

theorem type_mem_usesIn {word : String} : ∀ nodes : List Node,
    .type word ∈ usesIn nodes ↔ word ∈ declarationWords ∧ ∃ m ∈ membersIn nodes, m.type = word
  | [] => by simp [usesIn, membersIn]
  | node :: rest => by
    simp only [usesIn, membersIn, List.mem_append, node.type_mem_uses, type_mem_usesIn rest, or_and_right,
      exists_or, and_or_left]

end

mutual

/-- In the outline of trees, what stands in braces is a module or a struct. -/
theorem Node.body_mem_uses {word : String} : ∀ node : Node,
    .body word ∈ node.uses → word = "module" ∨ word = "struct"
  | .module _ children, h => by
    rw [Node.uses, List.mem_cons, Use.body.injEq] at h
    exact h.elim .inl (body_mem_usesIn children)
  | .struct _ children, h => by
    rw [Node.uses, List.mem_cons, Use.body.injEq] at h
    exact h.elim .inr (body_mem_usesIn children)
  | .typedef m, h | .field m, h | .constant m, h => by
    rw [Node.uses, typeUses] at h
    split at h <;> simp at h

theorem body_mem_usesIn {word : String} : ∀ nodes : List Node,
    .body word ∈ usesIn nodes → word = "module" ∨ word = "struct"
  | [], h => by simp [usesIn] at h
  | node :: rest, h => by
    rw [usesIn, List.mem_append] at h
    exact h.elim node.body_mem_uses (body_mem_usesIn rest)

end

theorem usesIn_eq_flatMap (nodes : List Node) : usesIn nodes = nodes.flatMap Node.uses := by
  induction nodes with
  | nil => rw [usesIn]; rfl
  | cons node rest ih => rw [usesIn, ih, List.flatMap_cons]

/-! ## Types -/

theorem typeUses_keywordType (name : String) : typeUses (keywordType name) = typeUses name := by
  unfold keywordType
  split <;> rfl

/-- A name with a colon is no word for a declaration. -/
theorem typeUses_of_colon {name : String} (h : ':' ∈ name.toList) : typeUses name = [] := by
  have hwords : ∀ word ∈ declarationWords, ':' ∉ word.toList := by decide
  rw [typeUses, if_neg fun hmem => hwords name hmem h]

/-- After the type of elements: a mark, a word for it, or the last word of more than one. -/
inductive ElementRead (uses : List Use) (lead : Lead) (type : String) (o : Outline) (cs : List Char) : Prop where
  | mark (hpoint : Stands uses .nothing [] o cs) (htype : typeUses type = [])
  | word {word : List Char} (hword : word ≠ []) (hpoint : Stands uses lead word o cs)
      (htype : typeUses (String.ofList word) = typeUses type)
  | last {lead' : Lead} {word : List Char} (hlead : lead' ≠ .element) (hnext : (lead'.next word).named = [])
      (hpoint : Stands uses lead' word o cs) (htype : typeUses type = [])

section Types

variable {uses : List Use} {lead : Lead} {word : List Char} {c : Char} (limit : Nat)

theorem traces_boundedString : Traces (Awaits uses lead) (boundedString limit) fun spec =>
    ElementRead uses lead spec.type := by
  have hkeyword (s : String) (hs : Word isNamePart s.toList) (hne : s.toList ≠ "sequence".toList)
      (huses : typeUses s = []) : Traces (Awaits uses lead) (token s *> pure s : Reader String) fun type o cs =>
        typeUses type = [] ∧ ∃ word, word ≠ "sequence".toList ∧ Stands uses lead word o cs :=
    (traces_token hs).seqRight (.pure fun o cs ho => ⟨huses, s.toList, hne, ho⟩)
  have htype := (hkeyword "wstring" (word_of_all (by decide) (by decide)) (by decide) rfl).orElse
    (hkeyword "string" (word_of_all (by decide) (by decide)) (by decide) rfl)
  have hopen (word : List Char) : Traces (fun o cs => word ≠ "sequence".toList ∧ Stands uses lead word o cs)
      (spaced '<') fun _ => Stands uses .nothing [] :=
    .and_pre fun hne => (traces_spaced '<' (by decide)).post fun _ o cs ho => by
      rwa [Lead.uses_open, List.append_nil, Lead.ofMark_open, if_neg hne] at ho
  refine htype.bind fun type => .and_pre fun huses => ((Traces.exists_pre hopen).bind fun _ => ?_)
  have hbound : Traces (Stands uses .nothing []) (bound limit) fun _ =>
      Owes (fun lead word => lead.ofElements word) uses :=
    (traces_bound limit).post fun _ _ _ ho => ho.owes (fun _ => rfl) fun _ => rfl
  refine hbound.bind fun n => traces_gap_owes.bind fun _ => ?_
  refine (traces_mark_owes '>' (by decide) (fun _ _ => rfl) fun _ => rfl).bind fun _ => ?_
  exact .pure fun o cs ho => .mark ho huses

/-- A word with a gap after it is what stands before the next word. -/
theorem Traces.keyword {α : Type} {s : String} {p : Reader α} {Q : α → Outline → List Char → Prop}
    (hs : Word isNamePart s.toList) (hlead : lead ≠ .colon) (h : Traces (Awaits uses (.type s.toList)) p Q) :
    Traces (Awaits uses lead) (do token s; gap1; p) Q := by
  have hnext : lead.next s.toList = .type s.toList := by rw [Lead.next, if_neg hs.ne_nil, if_neg hlead]
  exact (traces_token hs).bind fun _ => traces_gap1.bind fun _ => hnext ▸ h

/-- The words of a phrase, of which there is more than one. -/
theorem traces_phrase (s t : String) (words : List String) (h : ∀ w ∈ s :: t :: words, Word isNamePart w.toList)
    (hlead : lead ≠ .colon) : Traces (Awaits uses lead) (phrase (s :: t :: words)) fun _ o cs =>
      ∃ v, ∃ w ∈ t :: words, Stands uses (.type v) w.toList o cs := by
  obtain ⟨hs, hwords⟩ := List.forall_mem_cons.1 h
  rw [phrase_cons_cons]
  refine .keyword hs hlead ?_
  induction words generalizing s t lead with
  | nil =>
    have ht := hwords t List.mem_cons_self
    exact (traces_token ht).post fun _ o cs ho => ⟨s.toList, t, List.mem_cons_self, ho⟩
  | cons w words ih =>
    obtain ⟨ht, hrest⟩ := List.forall_mem_cons.1 hwords
    have hlead' : Lead.type s.toList ≠ .colon := by simp
    rw [phrase_cons_cons]
    refine .keyword ht hlead' ((ih t w hwords hlead' ht hrest).post ?_)
    exact fun _ o cs ⟨v, w', hw', ho⟩ => ⟨v, w', List.mem_cons_of_mem t hw', ho⟩

theorem traces_phraseType (hlead : lead ≠ .colon) : Traces (Awaits uses lead) phraseType fun type =>
    ElementRead uses lead type := by
  have hchoice (s t : String) (words : List String) (type : String)
      (h : ∀ w ∈ s :: t :: words, w.toList.all isNamePart = true ∧ w.toList ≠ [] ∧ typeUses w = [])
      (htype : typeUses type = []) : Traces (Awaits uses lead) (phrase (s :: t :: words) *> pure type) fun type =>
        ElementRead uses lead type := by
    have hwords : ∀ w ∈ s :: t :: words, Word isNamePart w.toList :=
      fun w hw => word_of_all (h w hw).2.1 (h w hw).1
    refine (traces_phrase s t words hwords hlead).seqRight (.pure fun o cs ⟨v, w, hw, ho⟩ => ?_)
    obtain ⟨-, hne, huses⟩ := h w (List.mem_cons_of_mem s hw)
    refine .last (by simp) ?_ ho htype
    rw [Lead.next, if_neg hne, if_neg (by simp), Lead.named, String.ofList_toList, huses]
  exact ((hchoice "unsigned" "long" ["long"] "uint64" (by decide) rfl).orElse
    ((hchoice "long" "long" [] "int64" (by decide) rfl).orElse
      ((hchoice "unsigned" "short" [] "uint16" (by decide) rfl).orElse
        (hchoice "unsigned" "long" [] "uint32" (by decide) rfl)))).seqLeft fun _ => .stop

theorem traces_elementType (hlead : lead ≠ .colon) : Traces (Awaits uses lead) (elementType limit) fun spec =>
    ElementRead uses lead spec.type := by
  refine (traces_boundedString limit).orElse (.orElse ?_ ?_)
  · exact (traces_phraseType hlead).bind fun type => .pure fun _ _ => id
  · refine (traces_scopedName limit).bind fun name => .pure fun o cs ho => ?_
    rcases ho.stands with ⟨hname, hstands⟩ | ⟨hcolon, word, hword, hstands⟩
    · exact .word hname.ne_nil hstands (by rw [String.ofList_toList, typeUses_keywordType])
    · refine .last (by simp) ?_ hstands ((typeUses_keywordType name).trans (typeUses_of_colon hcolon))
      rw [Lead.next, if_neg hword.ne_nil]
      rfl

/-- After a type: what the name of a member and a semicolon would note is due. -/
abbrev Typed : List Use → Outline → List Char → Prop := Owes fun lead word => (lead.next word).named

/-- After the name of a member, or after its bounds: what a semicolon would note is due. -/
abbrev Pending : List Use → Outline → List Char → Prop := Owes fun lead _ => lead.named

/-- After the type of elements: what the bracket of the sequence would note is due. -/
abbrev Bracketed : List Use → Outline → List Char → Prop := Owes fun lead word => lead.ofElements word

theorem ElementRead.typed {type : String} {o : Outline} {cs : List Char} (h : ElementRead uses lead type o cs)
    (hlead : lead ≠ .colon) : Typed (uses ++ typeUses type) o cs := by
  cases h with
  | mark hpoint htype => exact ⟨_, _, _, by rw [htype]; rfl, hpoint⟩
  | @word word hword hpoint htype =>
    have hnext : lead.next word = .type word := by rw [Lead.next, if_neg hword, if_neg hlead]
    refine ⟨uses, lead, word, ?_, hpoint⟩
    change uses ++ (lead.next word).named = uses ++ typeUses type
    rw [hnext, ← htype]
    rfl
  | last _ hnext hpoint htype => exact ⟨_, _, _, htype ▸ congrArg (uses ++ ·) hnext, hpoint⟩

theorem ElementRead.bracketed {type : String} {o : Outline} {cs : List Char}
    (h : ElementRead uses .element type o cs) : Bracketed (uses ++ typeUses type) o cs := by
  cases h with
  | mark hpoint htype => exact ⟨_, _, _, by rw [htype]; rfl, hpoint⟩
  | word _ hpoint htype => exact ⟨_, _, _, by rw [← htype]; rfl, hpoint⟩
  | @last lead' word hlead _ hpoint htype =>
    refine ⟨_, _, _, ?_, hpoint⟩
    rw [htype]
    cases lead' <;> first | rfl | exact absurd rfl hlead

theorem traces_typeSpec (hlead : lead ≠ .colon) : Traces (Awaits uses lead) (typeSpec limit) fun spec =>
    Typed (uses ++ typeUses spec.type) := by
  refine .orElse ?_ ((traces_elementType limit hlead).post fun _ _ _ ho => ho.typed hlead)
  have hopen : Traces (Stands uses lead "sequence".toList) (spaced '<') fun _ => Awaits uses .element :=
    (traces_spaced '<' (by decide)).post fun _ o cs ho => by
      rw [Lead.uses_open, List.append_nil, Lead.ofMark_open, if_pos rfl] at ho
      exact ho.awaits
  rw [sequenceType]
  refine (traces_token (word_of_all (by decide) (by decide))).bind fun _ => hopen.bind fun _ => ?_
  refine (traces_elementType limit (by simp)).bind fun element => ?_
  have hbound : Traces (ElementRead uses .element element.type) (optional (spaced ',' *> bound limit)) fun _ =>
      Bracketed (uses ++ typeUses element.type) := by
    refine .optional ?_ fun o cs ho => ho.bracketed
    have hcomma : Traces (Bracketed (uses ++ typeUses element.type)) (spaced ',') fun _ =>
        Stands (uses ++ typeUses element.type) .nothing [] :=
      traces_spaced_owes ',' (by decide) (fun _ _ => rfl) fun _ => rfl
    refine (hcomma.pre fun o cs ho => ElementRead.bracketed ho).seqRight ?_
    exact (traces_bound limit).post fun _ _ _ ho => ho.owes (fun _ => rfl) fun _ => rfl
  refine hbound.bind fun n => traces_gap_owes.bind fun _ => ?_
  refine (traces_mark_owes '>' (by decide) (fun _ _ => rfl) fun _ => rfl).bind fun _ => ?_
  exact .pure fun o cs ho => ho.owes rfl

end Types

/-! ## Members -/

section Members

variable {uses : List Use} {lead : Lead} (limit : Nat)

def Naming (uses : List Use) (o : Outline) (cs : List Char) : Prop :=
  ∃ noted lead, noted ++ lead.named = uses ∧ Awaits noted lead o cs

theorem traces_gap1_typed : Traces (Typed uses) gap1 fun _ => Naming uses :=
  .of_owes fun noted lead word huses => traces_gap1.post fun _ _ _ ho => ⟨noted, lead.next word, huses, ho⟩

theorem traces_name : Traces (Naming uses) name fun _ => Pending uses := by
  have hname (noted : List Use) (lead : Lead) :
      Traces (fun o cs => noted ++ lead.named = uses ∧ Awaits noted lead o cs) name fun _ => Pending uses :=
    .and_pre fun huses => .map String.ofList <|
      traces_identifier.post fun name _ _ ho => ⟨noted, lead, name, huses, ho.2.2⟩
  exact .exists_pre fun noted => .exists_pre (hname noted)

/-- The count of an array, in brackets. -/
theorem traces_arrayLength : Traces (Pending uses) (do
    spaced '['
    let n ← bound limit
    gap
    mark ']'
    return n) fun _ => Pending uses := by
  refine (traces_spaced_owes '[' (by decide) (fun _ _ => rfl) fun _ => rfl).bind fun _ => ?_
  have hbound : Traces (Stands uses .nothing []) (bound limit) fun _ => Owes (fun _ _ => []) uses :=
    (traces_bound limit).post fun _ _ _ ho => ho.owes (fun _ => rfl) fun _ => rfl
  refine hbound.bind fun n => traces_gap_owes.bind fun _ => ?_
  refine (traces_mark_owes ']' (by decide) (fun _ _ => rfl) fun _ => rfl).bind fun _ => ?_
  exact .pure fun o cs ho => ho.owes rfl

theorem TypeSpec.type_of_member? {spec : TypeSpec} {name : String} {length : Option Literal} {m : Member}
    (h : spec.member? name length = some m) : m.type = spec.type := by
  unfold TypeSpec.member? at h
  dsimp only at h
  split at h <;> cases h <;> rfl

theorem traces_typedName (hlead : lead ≠ .colon) : Traces (Awaits uses lead) (typedName limit) fun m =>
    Pending (uses ++ typeUses m.type) := by
  refine (traces_typeSpec limit hlead).bind fun spec => traces_gap1_typed.bind fun _ => ?_
  have hdeclarator : Traces (Naming (uses ++ typeUses spec.type)) (declarator limit) fun _ =>
      Pending (uses ++ typeUses spec.type) := by
    have hlength := Traces.optional (S := fun _ => Pending (uses ++ typeUses spec.type)) (traces_arrayLength limit)
      fun _ _ => id
    exact traces_name.bind fun name => hlength.bind fun length => .pure fun _ _ => id
  exact hdeclarator.bind fun d => .given fun m hm o cs ho => TypeSpec.type_of_member? hm ▸ ho

theorem traces_typedef (hlead : lead ≠ .colon) : Traces (Awaits uses lead) (typedef limit) fun node =>
    Pending (uses ++ node.uses) :=
  .keyword (word_of_all (by decide) (by decide)) hlead <|
    (traces_typedName limit (by simp)).bind fun m => .pure fun _ _ => id

theorem traces_field (hlead : lead ≠ .colon) : Traces (Awaits uses lead) (field limit) fun node =>
    Pending (uses ++ node.uses) :=
  .map Node.field (traces_typedName limit hlead)

theorem traces_constant (hlead : lead ≠ .colon) : Traces (Awaits uses lead) (constant limit) fun node =>
    Pending (uses ++ node.uses) := by
  refine .keyword (word_of_all (by decide) (by decide)) hlead ?_
  refine (traces_typeSpec limit (by simp)).bind fun spec => Traces.guard.bind fun _ => ?_
  refine traces_gap1_typed.bind fun _ => traces_name.bind fun name => ?_
  refine (traces_spaced_owes '=' (by decide) (fun _ _ => rfl) fun _ => rfl).bind fun _ => ?_
  refine (traces_literal limit).bind fun value => .pure fun o cs ho => ?_
  exact ho.owes (fun _ => rfl) fun _ => rfl

theorem traces_semicolon : Traces (Pending uses) semicolon fun _ => Stands uses .nothing [] :=
  traces_gap_owes.seqRight (traces_mark_owes ';' (by decide) (fun _ _ => rfl) fun _ => rfl)

end Members

/-! ## Notes -/

section Notes

variable {uses : List Use} (limit : Nat)

/-- Before a declaration, maybe after notes of its own. -/
def Noted (uses : List Use) (o : Outline) (cs : List Char) : Prop := ∃ lead, lead ≠ .colon ∧ Awaits uses lead o cs

theorem Noted.owes {o : Outline} {cs : List Char} (h : Noted uses o cs) : Owes (fun _ _ => []) uses o cs := by
  obtain ⟨lead, -, ho⟩ := h
  exact ⟨uses, o.lead, o.word, List.append_nil uses, ho.mode, ho.uses, rfl, rfl⟩

theorem Traces.of_noted {α : Type} {p : Reader α} {Q : α → Outline → List Char → Prop}
    (h : ∀ lead, lead ≠ .colon → Traces (Awaits uses lead) p Q) : Traces (Noted uses) p Q :=
  fun o cs a rest ⟨lead, hlead, ho⟩ => h lead hlead o cs a rest ho

theorem traces_parameter : Traces (Stands uses .nothing []) (parameter limit) fun _ => Calm uses := by
  have hliteral {α : Type} (f : Literal × Option (List Char) → α) :
      Traces (Stands uses .nothing []) (do return f (← literal limit)) fun _ => Calm uses :=
    (traces_literal limit).bind fun _ => .pure fun _ _ => id
  refine .orElse ?_ (hliteral _)
  have hkey : Traces (Stands uses .nothing []) name fun _ => Pending uses :=
    traces_name.pre fun o cs ho => ⟨uses, .nothing, List.append_nil uses, ho.awaits⟩
  refine hkey.bind fun key => ?_
  exact (traces_spaced_owes '=' (by decide) (fun _ _ => rfl) fun _ => rfl).bind fun _ => hliteral _

theorem traces_parameters : Traces (Owes (fun _ _ => []) uses) (parameters limit)
    fun _ => Stands uses .nothing [] := by
  have hall : Traces (Stands uses .nothing []) (separated (spaced ',') (parameter limit) limit) fun _ =>
      Owes (fun _ _ => []) uses := by
    have hcomma : Traces (Calm uses) (spaced ',') fun _ => Stands uses .nothing [] :=
      (traces_spaced_owes ',' (by decide) (fun _ _ => rfl) fun _ => rfl).pre fun o cs ho =>
        ho.owes (fun _ => rfl) fun _ => rfl
    have hseparated := Traces.separated (traces_parameter limit) hcomma (fun o cs ho => Stands.calm ho) limit
    exact hseparated.post fun _ _ _ ho => ho.owes (fun _ => rfl) fun _ => rfl
  refine traces_gap_owes.bind fun _ => ?_
  refine (traces_mark_owes '(' (by decide) (fun _ _ => rfl) fun _ => rfl).bind fun _ => traces_gap.bind fun _ => ?_
  refine hall.bind fun all => traces_gap_owes.bind fun _ => ?_
  exact (traces_mark_owes ')' (by decide) (fun _ _ => rfl) fun _ => rfl).bind fun _ => .pure fun _ _ => id

inductive NoteEnd (uses : List Use) (o : Outline) (cs : List Char) : Prop where
  | mark (hpoint : Stands uses .nothing [] o cs)
  | word {lead : Lead} {word : List Char} (hlead : lead.next word ≠ .colon) (hpoint : Stands uses lead word o cs)
      (hends : Ends cs)

theorem Named.noteEnd {word : List Char} {o : Outline} {cs : List Char} (h : Named uses .nothing word o cs) :
    NoteEnd uses o cs := by
  rcases h.stands with ⟨hword, hstands⟩ | ⟨-, word, hword, hstands⟩
  · exact .word (by simp [Lead.next, hword.ne_nil]) hstands h.ends
  · exact .word (by simp [Lead.next, hword.ne_nil]) hstands h.ends

theorem traces_note : Traces (Noted uses) (note limit <* gap) fun _ => Noted uses := by
  have hnote : Traces (Noted uses) (note limit) fun _ => NoteEnd uses := by
    have hmark : Traces (Noted uses) (mark '@') fun _ => Awaits uses .nothing :=
      (traces_mark_owes '@' (by decide) (fun _ _ => rfl) fun _ => rfl).mono (fun _ _ ho => Noted.owes ho)
        fun _ _ _ ho => ho.awaits
    refine hmark.bind fun _ => (traces_scopedName limit).bind fun name => ?_
    have hparameters : Traces (Named uses .nothing name.toList) (parameters limit) fun _ => NoteEnd uses :=
      (traces_parameters limit).mono (fun _ _ ho => ho.calm.owes (fun _ => rfl) fun _ => rfl)
        fun _ _ _ ho => .mark ho
    have hoptional := Traces.optional (S := fun _ => NoteEnd uses) hparameters fun _ _ ho => ho.noteEnd
    exact hoptional.bind fun all => .pure fun _ _ => id
  have hgap : Traces (NoteEnd uses) gap fun _ => Noted uses := by
    intro o cs u rest ho hread
    cases ho with
    | mark hpoint =>
      have hgap := traces_gap.post fun _ _ _ ho => (⟨.nothing, by simp, ho.awaits⟩ : Noted uses _ _)
      exact hgap o cs u rest hpoint hread
    | word hlead hpoint hends =>
      have hgap := traces_gap_of_ends.post fun _ _ _ ho => (⟨_, hlead, ho⟩ : Noted uses _ _)
      exact hgap o cs u rest ⟨hpoint, hends⟩ hread
  exact hnote.seqLeft fun _ => hgap

theorem uses_annotate (notes : List Note) (node : Node) : (annotate notes node).uses = node.uses := by
  cases node with
  | field m =>
    rw [annotate]
    split <;> rfl
  | _ => rfl

/-- The notes of a declaration are of no use. -/
theorem traces_annotated {p : Reader Node} {Q : List Use → Outline → List Char → Prop}
    (hp : Traces (Noted uses) p fun node => Q (uses ++ node.uses)) :
    Traces (Stands uses .nothing []) (annotated limit p) fun node => Q (uses ++ node.uses) := by
  have hnotes := Traces.many (I := fun _ => Noted uses) (fun _ => traces_note limit) limit []
  refine (hnotes.bind fun notes => hp.bind fun node => .pure fun o cs ho => ?_).pre fun o cs ho => ?_
  · rwa [uses_annotate]
  · exact ⟨.nothing, by simp, ho.awaits⟩

end Notes

/-! ## Declarations -/

section Declarations

variable {uses : List Use} (limit : Nat)

theorem traces_structMember : Traces (Stands uses .nothing []) (structMember limit) fun node =>
    Stands (uses ++ node.uses) .nothing [] := by
  refine traces_annotated (Q := fun uses => Stands uses .nothing []) limit ?_
  refine .of_noted fun lead hlead => ?_
  exact ((traces_constant limit hlead).orElse (traces_field limit hlead)).seqLeft fun _ => traces_semicolon

/-- The braces of a declaration hold what it is read as, one after the other. -/
theorem traces_braced {α : Type} {keyword : String} {inner : Reader α} {f : α → List Use}
    (hkeyword : Word isNamePart keyword.toList)
    (hinner : ∀ uses, Traces (Stands uses .nothing []) inner fun a => Stands (uses ++ f a) .nothing []) :
    Traces (Noted uses) (braced keyword inner limit) fun all =>
      Stands (uses ++ .body keyword :: all.2.flatMap f) .nothing [] := by
  refine .of_noted fun lead hlead => .keyword hkeyword hlead ?_
  have hname : Traces (Awaits uses (.type keyword.toList)) name fun name =>
      Stands uses (.type keyword.toList) name.toList :=
    .map String.ofList (traces_identifier.post fun _ _ _ ho => by simpa using ho.2.2)
  refine hname.bind fun name => traces_gap.bind fun _ => ?_
  refine (traces_mark '\x7b' (by decide)).bind fun _ => traces_gap.bind fun _ => ?_
  have hopen : ((Lead.type keyword.toList).uses name.toList '\x7b', Lead.ofMark name.toList '\x7b') =
      ([.body keyword], .nothing) := by
    rw [Lead.uses_brace, Lead.body, String.ofList_toList]
    rfl
  obtain ⟨huses, hlead⟩ := Prod.mk.inj hopen
  rw [huses, hlead]
  have hmany := Traces.many (I := fun all => Stands (uses ++ .body keyword :: all.flatMap f) .nothing [])
    (fun all => ((hinner _).seqLeft fun _ => traces_gap).post fun a _ _ ho => by simpa using ho) limit []
  refine Traces.bind (hmany.pre fun o cs ho => by simpa using ho) fun all => ?_
  refine (traces_mark '\x7d' (by decide)).bind fun _ => .pure fun o cs ho => ?_
  have hclose : Lead.uses .nothing [] '\x7d' = [] := rfl
  rwa [hclose, List.append_nil] at ho

theorem usesIn_filterMap (items : List (Option Node)) :
    usesIn (items.filterMap id) = items.flatMap fun item => item.elim [] Node.uses := by
  rw [usesIn_eq_flatMap]
  induction items with
  | nil => rfl
  | cons item items ih =>
    cases item with
    | none =>
      rw [List.filterMap_cons_none rfl, ih]
      rfl
    | some node =>
      rw [List.filterMap_cons_some (f := id) rfl, List.flatMap_cons, ih]
      rfl

theorem traces_declaration {inner : Reader (Option Node)}
    (hinner : ∀ uses, Traces (Stands uses .nothing []) inner fun item =>
      Stands (uses ++ item.elim [] Node.uses) .nothing []) :
    Traces (Stands uses .nothing []) (declaration limit inner) fun node => Pending (uses ++ node.uses) := by
  have hmember : Traces (Noted uses) (typedef limit <|> constant limit <|> field limit) fun node =>
      Pending (uses ++ node.uses) :=
    .of_noted fun lead hlead => (traces_typedef limit hlead).orElse
      ((traces_constant limit hlead).orElse (traces_field limit hlead))
  refine traces_annotated limit (.orElse ?_ (.orElse ?_ hmember))
  · have hkeyword : Word isNamePart "module".toList := word_of_all (by decide) (by decide)
    refine (traces_braced limit hkeyword hinner).bind fun all => .pure fun o cs ho => ?_
    rw [← usesIn_filterMap] at ho
    exact ho.owes rfl
  · have hkeyword : Word isNamePart "struct".toList := word_of_all (by decide) (by decide)
    refine (traces_braced limit hkeyword fun _ => traces_structMember limit).bind fun all => .pure fun o cs ho => ?_
    rw [← usesIn_eq_flatMap] at ho
    exact ho.owes rfl

theorem traces_item (depth : Nat) (uses : List Use) :
    Traces (Stands uses .nothing []) (item limit depth) fun item =>
      Stands (uses ++ item.elim [] Node.uses) .nothing [] := by
  induction depth generalizing uses with
  | zero =>
    intro o cs a rest _ hread
    cases hread
  | succ depth ih =>
    have hinclude : Traces (Stands uses .nothing []) (includeFile *> pure none : Reader (Option Node)) fun item =>
        Stands (uses ++ item.elim [] Node.uses) .nothing [] :=
      traces_includeFile.seqRight (.pure fun o cs ho => by simpa using ho)
    exact hinclude.orElse (.map some ((traces_declaration limit ih).seqLeft fun _ => traces_semicolon))

/-- The outline of an accepted document is that of its trees. -/
theorem usesOf_of_nodes {document : List Char} {roots : List Node} (h : nodes document = .ok roots) :
    usesOf (stripComments document) = usesIn roots := by
  unfold nodes at h
  split at h
  · next all hall =>
    obtain rfl := Except.ok.inj h
    have hread := whole?_eq_some.1 hall
    have hitems : Traces (Stands [] .nothing []) (items document.length) fun nodes =>
        Stands (usesIn nodes) .nothing [] := by
      have hitem (all : List (Option Node)) :=
        (traces_item document.length document.length (all.flatMap fun item => item.elim [] Node.uses)).seqLeft
          fun _ => traces_gap
      have hmany := Traces.many (I := fun all => Stands (all.flatMap fun item => item.elim [] Node.uses) .nothing [])
        (fun all => (hitem all).post fun a _ _ ho => by simpa using ho) document.length []
      exact traces_gap.bind fun _ => hmany.bind fun all => .pure fun o cs ho => usesIn_filterMap all ▸ ho
    obtain ⟨text, htext, ho⟩ := hitems {} _ _ _ ⟨rfl, rfl, rfl, rfl⟩ hread
    rw [List.append_nil] at htext
    rw [htext, usesOf, ho.uses]
  · cases h

end Declarations

/-! ## Words for declarations as types -/

/-- A forward declaration is read as a field of the type that its keyword would be. -/
theorem nodes_of_forward {word : String} (hword : word = "union" ∨ word = "enum" ∨ word = "bitmask")
    {name text : List Char} (hname : IsName name) (htext : Spaced [word.toList, name, [';']] text) :
    nodes text = .ok [.field { type := word, name := String.ofList name }] := by
  have hname' : IsName word.toList := by rcases hword with rfl | rfl | rfl <;> decide
  have htype : ElementWords word none [word.toList] := by
    have hnamed := ElementWords.named (.mk hname' (List.forall_mem_nil _))
    rwa [List.flatMap_nil, List.append_nil, String.ofList_toList] at hnamed
  have hprints : Prints (.field { type := word, name := String.ofList name }) [word.toList, name, [';']] :=
    .member (.field (.single htype hname))
  have hparts : ∀ part ∈ [(Node.field { type := word, name := String.ofList name }, [word.toList, name, [';']])],
      Prints part.1 part.2 := List.forall_mem_singleton.2 hprints
  exact nodes_of_prints hparts htext

/-- In an accepted document the words for declarations are types of members where the outline has them as types,
and it has no braces but those of modules and structs. -/
theorem declaredTypes_of_nodes {document : List Char} {roots : List Node} (h : nodes document = .ok roots) :
    (∀ word ∈ declarationWords,
      (∃ m ∈ membersIn roots, m.type = word) ↔ .type word ∈ usesOf (stripComments document)) ∧
    ∀ word, .body word ∈ usesOf (stripComments document) → word = "module" ∨ word = "struct" := by
  rw [usesOf_of_nodes h]
  refine ⟨fun word hword => ?_, fun word => body_mem_usesIn roots⟩
  rw [type_mem_usesIn]
  exact (and_iff_right hword).symm

/-- A word for a declaration that is the name of a member, or stands in a comment, is no type. -/
theorem declaredTypes_of_nodes_of_enumKind : ∃ roots,
    nodes "module m \x7b\nstruct S \x7b enum kind; int32 union; \x7d; // union U;\n\x7d;".toList = .ok roots ∧
      (∃ m ∈ membersIn roots, m.type = "enum") ∧ ¬ ∃ m ∈ membersIn roots, m.type = "union" := by
  have h : nodes "module m \x7b\nstruct S \x7b enum kind; int32 union; \x7d; // union U;\n\x7d;".toList =
      .ok [.module "m" [
        .struct "S" [
          .field { type := "enum", name := "kind" },
          .field { type := "int32", name := "union" }]]] := by
    decide +kernel
  have htypes := (declaredTypes_of_nodes h).1
  exact ⟨_, h, (htypes "enum" (by decide)).2 (by decide +kernel),
    mt (htypes "union" (by decide)).1 (by decide +kernel)⟩

/-- The forward declarations of unions, enums and bitmasks are accepted. -/
theorem not_declaredTypes_of_unionForward :
    (nodes "union U;".toList = .ok [.field { type := "union", name := "U" }] ∧ "union" ∈ declarationWords) ∧
      ∀ word ∈ ["union", "enum", "bitmask"],
        nodes (word.toList ++ " U ;".toList) = .ok [.field { type := word, name := "U" }] := by
  refine ⟨by decide +kernel, fun word hword => ?_⟩
  have hspace : Word isGap [' '] := word_of_all (by decide) (by decide)
  have htext : Spaced [word.toList, ['U'], [';']] (word.toList ++ " U ;".toList) := by
    have hspaced := Spaced.cons word.toList hspace (.cons ['U'] hspace (.last [';']))
    rwa [List.append_assoc] at hspaced
  exact nodes_of_forward (by simpa using hword) (by decide) htext

end RosSchema.Idl
