import RosSchema.Proofs.Idl.Keywords

/-!
# Members with types of keywords

A member whose name clashes with the spelling of its type is not read, and neither is anything after it.
`nodes_of_structText` says what a document of one struct is read as, whatever else the struct holds.
-/

namespace RosSchema.Idl

open Reader
open RosSchema.Line.Ros1 (IsIdentifier identifier_append)

/-! ## Members -/

theorem annotate_nil (node : Node) : annotate [] node = node := by
  cases node <;> rfl

/-- A declaration without notes. -/
theorem annotated_apply {p : Reader Node} {cs : List Char} (h : ∀ c ∈ cs.head?, c ≠ '@') (limit : Nat) :
    annotated limit p cs = p cs := by
  have hnotes : (note limit <* gap) cs = none := by
    rw [seqLeft_eq_bind]
    exact bind_of_eq_none (bind_of_eq_none (mark_eq_none h))
  rw [annotated, bind_of_eq_some (many_eq_nil hnotes limit)]
  change ((p cs).bind fun r => some (annotate [] r.1, r.2)) = _
  cases p cs with
  | none => rfl
  | some r => rw [Option.bind_some, annotate_nil]

section Members

variable {limit : Nat} {cs gaps name space after : List Char} {c : Char} {type : String}
  (hspace : ∀ d ∈ space, isGap d = true) (hc : isGap c = false)
include hspace hc

/-- The mark after a gap is the one character that counts. -/
theorem gap_mark_append (d : Char) :
    (gap *> mark d) (space ++ c :: after) = if c = d then some ((), after) else none := by
  have hgap : gap (space ++ c :: after) = some ((), c :: after) := by
    refine gap_append hspace ?_
    rintro d ⟨⟩
    exact hc
  rw [seqRight_eq_bind, bind_of_eq_some hgap]
  split
  · next h => exact h ▸ mark_eq_some.2 rfl
  · next h =>
    refine mark_eq_none ?_
    rintro d ⟨⟩
    exact h

variable (hgaps : Word isGap gaps) (hname : IsIdentifier name) (hbracket : c ≠ '[')
  (hstops : ∀ d ∈ (space ++ c :: after).head?, isNamePart d = false)
include hgaps hname hbracket hstops

/-- A field of a type that is no string with a bound and no sequence. -/
theorem field_append (htype : typeSpec limit cs = some ({ type }, gaps ++ (name ++ (space ++ c :: after)))) :
    field limit cs = some (.field { type, name := String.ofList name }, space ++ c :: after) := by
  have hlength : optional (do
      spaced '['
      let n ← bound limit
      gap
      mark ']'
      return n : Reader Literal) (space ++ c :: after) = some (none, space ++ c :: after) := by
    refine optional_eq_some.2 (.inr ⟨bind_of_eq_none ?_, rfl, rfl⟩)
    rw [spaced, seqRight_eq_bind]
    exact bind_of_eq_none ((gap_mark_append hspace hc '[').trans (if_neg hbracket))
  have hdeclarator : declarator limit (name ++ (space ++ c :: after)) =
      some ((String.ofList name, none), space ++ c :: after) := by
    refine bind_eq_some.2 ⟨String.ofList name, _, map_eq_some.2 ⟨name, identifier_append hname hstops, rfl⟩, ?_⟩
    exact bind_eq_some.2 ⟨none, _, hlength, rfl⟩
  refine map_eq_some.2 ⟨_, bind_eq_some.2 ⟨_, _, htype, bind_eq_some.2 ⟨(), _, gap1_append hgaps ?_, ?_⟩⟩, rfl⟩
  · exact isGap_head?_identifier hname _
  · exact bind_eq_some.2 ⟨_, _, hdeclarator, rfl⟩

end Members

section StructMembers

variable {limit : Nat} {word text gaps name space after : List Char} {k : Spelling}

theorem IsApart.head {word : List Char} (h : IsApart word) (after : List Char) :
    ∀ c ∈ (word ++ after).head?, c ≠ '@' := by
  rintro c hc rfl
  cases word with
  | nil => exact (h "@" (by decide)).2 List.nil_prefix
  | cons d word =>
    cases hc
    exact (h "@" (by decide)).1 ⟨word, rfl⟩

theorem constant_of_apart (h : IsApart word) : constant limit (word ++ after) = none :=
  bind_of_eq_none (h.token (by decide) after)

/-- A member that is no constant and has no notes is a field with its semicolon. -/
theorem structMember_of_apart (h : IsApart word) (limit : Nat) (after : List Char) :
    structMember limit (word ++ after) =
      (field limit (word ++ after)).bind fun r => (semicolon r.2).map fun s => (r.1, s.2) := by
  rw [structMember, annotated_apply (h.head after), seqLeft_apply, orElse_apply, constant_of_apart h,
    Option.none_or]

theorem field_close (after : List Char) : field limit ('\x7d' :: after) = none := by
  have hapart : IsApart ['\x7d'] := by decide
  have hphrase : phraseType (['\x7d'] ++ after) = none :=
    phraseType_eq_none (token_eq_none _ _ (by decide) (by decide) after)
      (token_eq_none _ _ (by decide) (by decide) after)
  have htype : typeSpec limit ('\x7d' :: after) = none := typeSpec_eq_none limit hapart.unbracketed hphrase rfl
  rw [field, map_apply, typedName, bind_of_eq_none htype]
  rfl

theorem structMember_close (after : List Char) : structMember limit ('\x7d' :: after) = none := by
  have hapart : IsApart ['\x7d'] := by decide
  have hread := structMember_of_apart hapart limit after
  rwa [List.singleton_append, field_close] at hread

theorem isNamePart_head?_space {c : Char} (hspace : ∀ d ∈ space, isGap d = true) (hc : isNamePart c = false)
    (after : List Char) : ∀ d ∈ (space ++ c :: after).head?, isNamePart d = false := by
  cases space with
  | nil =>
    rintro d ⟨⟩
    exact hc
  | cons e space =>
    rintro d ⟨⟩
    exact isNamePart_eq_false_of_isGap (hspace _ List.mem_cons_self)

/-- A type that takes the name as well leaves none for the member. -/
theorem field_eq_none {spec : TypeSpec} {cs : List Char} (hspace : ∀ c ∈ space, isGap c = true)
    (htype : typeSpec limit cs = some (spec, space ++ ';' :: after)) : field limit cs = none := by
  have hname : declarator limit (';' :: after) = none := bind_of_eq_none rfl
  have htyped : typedName limit cs = none := by
    rw [typedName, bind_of_eq_some htype]
    cases space with
    | nil => exact bind_of_eq_none rfl
    | cons c space =>
      have hgaps : Word isGap (c :: space) := ⟨List.cons_ne_nil c space, hspace⟩
      rw [bind_of_eq_some (gap1_append hgaps (by rintro d ⟨⟩; decide))]
      exact bind_of_eq_none hname
  rw [field, map_apply, htyped]
  rfl

/-- Where `unsigned` is a type by itself and `long` a name, nothing but a semicolon can follow. -/
theorem structMember_unsigned {gaps' : List Char} {c : Char} (hgaps : Word isGap gaps) (hgaps' : Word isGap gaps')
    (hc : isNamePart c = true)
    (hphrase : phraseType ("unsigned".toList ++ (gaps ++ ("long".toList ++ (gaps' ++ c :: after)))) = none) :
    structMember limit ("unsigned".toList ++ (gaps ++ ("long".toList ++ (gaps' ++ c :: after)))) = none := by
  have hgap := isGap_eq_false_of_isNamePart hc
  have hlong : IsIdentifier "long".toList := isIdentifier_of_checks (by decide) (by decide)
  have hunsigned : IsIdentifier "unsigned".toList := isIdentifier_of_checks (by decide) (by decide)
  have htype := typeSpec_of_name limit (by decide) hphrase hunsigned (isGap_head?_gaps hgaps _)
  have hstops : ∀ d ∈ (gaps' ++ c :: after).head?, isNamePart d = false := fun d hd =>
    isNamePart_eq_false_of_isGap (isGap_head?_gaps hgaps' _ d hd)
  have hfield := field_append hgaps'.all hgap hgaps hlong (by rintro rfl; exact absurd hc (by decide)) hstops htype
  rw [structMember_of_apart (by decide) limit, hfield, Option.bind_some, semicolon,
    gap_mark_append hgaps'.all hgap, if_neg (by rintro rfl; exact absurd hc (by decide))]
  rfl

variable (htext : PhraseText k.words text) (hgaps : Word isGap gaps) (hname : IsIdentifier name)
  (hspace : ∀ c ∈ space, isGap c = true)
include htext hgaps hname hspace

theorem structMember_spelling (hclash : k.clashes name = false) :
    structMember limit (text ++ (gaps ++ (name ++ (space ++ ';' :: after)))) =
      some (.field { type := k.type, name := String.ofList name }, after) := by
  have hstops := isNamePart_head?_space hspace (by decide : isNamePart ';' = false) after
  have hgap : isGap ';' = false := by decide
  have htype := typeSpec_spelling hgaps hname hstops htext limit hclash
  have hfield := field_append hspace hgap hgaps hname (by decide) hstops htype
  obtain ⟨w, words, hwords, hapart, -⟩ := k.exists_cons
  obtain ⟨more, rfl⟩ := (hwords ▸ htext : PhraseText (w :: words) text).exists_append
  rw [List.append_assoc] at hfield ⊢
  rw [structMember_of_apart hapart limit, hfield, Option.bind_some, semicolon, gap_mark_append hspace hgap,
    if_pos rfl]
  rfl

theorem structMember_clash (hclash : k.clashes name = true) :
    structMember limit (text ++ (gaps ++ (name ++ (space ++ ';' :: after)))) = none := by
  have hstops := isNamePart_head?_space hspace (by decide : isNamePart ';' = false) after
  have hnone {word more : List Char} (hapart : IsApart word) (hfield : field limit (word ++ more) = none) :
      structMember limit (word ++ more) = none := by
    rw [structMember_of_apart hapart limit, hfield]
    rfl
  cases k with
  | long =>
    obtain rfl := htext.eq_of_one
    obtain rfl : name = "long".toList := beq_iff_eq.1 hclash
    have hphrase : phraseType ("long".toList ++ (gaps ++ ("long".toList ++ (space ++ ';' :: after)))) =
        some ("int64", space ++ ';' :: after) := by
      rw [phraseType_apply, integerRead?_long hgaps (isGap_head?_identifier hname _), token_append,
        Option.map_some, Option.bind_some, stop_of_head hstops]
      rfl
    exact hnone (by decide) (field_eq_none hspace (typeSpec_of_phrase limit (by decide) hphrase))
  | unsignedLong =>
    obtain ⟨gaps₁, hgaps₁, rfl⟩ := htext.exists_of_two
    obtain ⟨more, rfl⟩ := List.isPrefixOf_iff_prefix.1 hclash
    have hhead (after : List Char) : ∀ c ∈ ("long".toList ++ after).head?, isGap c = false := by
      rintro c ⟨⟩
      decide
    have hphrase := phraseType_apply ("unsigned".toList ++
      (gaps₁ ++ ("long".toList ++ (gaps ++ ("long".toList ++ (more ++ (space ++ ';' :: after)))))))
    rw [integerRead?_unsignedLong hgaps₁ hgaps (hhead _), token_append, Option.map_some, Option.some_or,
      Option.bind_some] at hphrase
    simp only [List.append_assoc]
    cases more with
    | nil =>
      rw [List.nil_append, stop_of_head hstops] at hphrase
      exact hnone (by decide) (field_eq_none hspace (typeSpec_of_phrase limit (by decide) hphrase))
    | cons c more =>
      -- the name goes on after the word: the type is `unsigned`, and the name `long`
      have hc : isNamePart c = true := hname.all c (by simp)
      rw [List.cons_append, stop_of_part hc] at hphrase
      exact structMember_unsigned hgaps₁ hgaps (by decide) hphrase
  | _ => cases hclash

end StructMembers

/-! ## Structs -/

inductive Entry where
  | spelled (k : Spelling) (name : List Char)
  | other (node : Node)

namespace Entry

/-- The node of a member. There is none where the name clashes with the spelling. -/
def node? : Entry → Option Node
  | spelled k name =>
    if k.clashes name then none else some (.field { type := k.type, name := String.ofList name })
  | other node => some node

inductive Text : Entry → List Char → Prop where
  | spelled {k : Spelling} {text gaps name space : List Char} (htext : PhraseText k.words text)
      (hgaps : Word isGap gaps) (hname : IsIdentifier name) (hspace : ∀ c ∈ space, isGap c = true) :
      Text (.spelled k name) (text ++ (gaps ++ (name ++ (space ++ [';']))))
  | other {node : Node} {c : Char} {tail : List Char} (hstart : isGap c = false)
      (hread : ∀ limit rest, (c :: tail).length ≤ limit →
        structMember limit (c :: tail ++ rest) = some (node, rest)) :
      Text (.other node) (c :: tail)

end Entry

inductive EntriesText : List Entry → List Char → Prop where
  | nil : EntriesText [] []
  | cons {entry : Entry} {entries : List Entry} {text gaps rest : List Char} (htext : entry.Text text)
      (hgaps : ∀ c ∈ gaps, isGap c = true) (hrest : EntriesText entries rest) :
      EntriesText (entry :: entries) (text ++ (gaps ++ rest))

/-- The text between the gaps at the two ends of a document that is one struct. -/
inductive StructText (name : List Char) (entries : List Entry) : List Char → Prop where
  | mk {gaps beforeBrace afterBrace body space : List Char} (hgaps : Word isGap gaps) (hname : IsIdentifier name)
      (hbefore : ∀ c ∈ beforeBrace, isGap c = true) (hafter : ∀ c ∈ afterBrace, isGap c = true)
      (hbody : EntriesText entries body) (hspace : ∀ c ∈ space, isGap c = true) :
      StructText name entries ("struct".toList ++ (gaps ++ (name ++ (beforeBrace ++ '\x7b' ::
        (afterBrace ++ (body ++ '\x7d' :: (space ++ [';'])))))))

section Structs

variable {limit : Nat} {entry : Entry} {entries : List Entry} {text body after : List Char}

theorem Entry.Text.structMember (h : entry.Text text) (hlimit : text.length ≤ limit) (rest : List Char) :
    structMember limit (text ++ rest) = entry.node?.map fun node => (node, rest) := by
  cases h with
  | @spelled k _ _ name _ htext hgaps hname hspace =>
    simp only [List.append_assoc, List.singleton_append]
    cases hclash : k.clashes name with
    | true => rw [structMember_clash htext hgaps hname hspace hclash, Entry.node?, if_pos hclash]; rfl
    | false =>
      rw [structMember_spelling htext hgaps hname hspace hclash, Entry.node?, if_neg (by simp [hclash])]
      rfl
  | other hstart hread => exact hread limit rest hlimit

theorem Entry.Text.exists_cons (h : entry.Text text) :
    ∃ c tail, text = c :: tail ∧ isGap c = false ∧ (entry.node? = none → c ≠ '\x7d') := by
  cases h with
  | @spelled k _ _ name _ htext _ _ _ =>
    obtain ⟨w, words, hwords, -, hidentifier⟩ := k.exists_cons
    obtain ⟨more, rfl⟩ := (hwords ▸ htext : PhraseText (w :: words) _).exists_append
    obtain ⟨c, tail, heq, hc⟩ := hidentifier.first
    refine ⟨c, _, by rw [heq]; rfl, isGap_eq_false_of_isNamePart (isNamePart_of_isNameStart hc), ?_⟩
    rintro - rfl
    exact absurd hc (by decide)
  | @other _ c tail hstart _ => exact ⟨c, tail, rfl, hstart, fun h => by cases h⟩

theorem exists_many {α : Type} (p : Reader α) (limit : Nat) (cs : List Char) : ∃ r, many p limit cs = some r := by
  cases limit with
  | zero => exact ⟨_, rfl⟩
  | succ limit =>
    rw [many_succ_apply]
    cases (p cs).bind fun r => (many p limit r.2).map fun s => (r.1 :: s.1, s.2) with
    | none => exact ⟨_, rfl⟩
    | some r => exact ⟨r, rfl⟩

theorem EntriesText.isGap_head? (h : EntriesText entries body) (after : List Char) :
    ∀ c ∈ (body ++ '\x7d' :: after).head?, isGap c = false := by
  cases h with
  | nil =>
    rintro c ⟨⟩
    decide
  | cons htext _ _ =>
    obtain ⟨c, tail, rfl, hc, -⟩ := htext.exists_cons
    rintro d ⟨⟩
    exact hc

/-- The members between the braces of a struct are read one by one. Behind the first that is lost no brace
follows. -/
theorem many_entries (h : EntriesText entries body) (after : List Char) {n : Nat} (hn : entries.length ≤ n)
    (hlimit : body.length ≤ limit) :
    ((many (structMember limit <* gap) n (body ++ '\x7d' :: after)).bind fun r =>
      (mark '\x7d' r.2).map fun s => (r.1, s.2)) = (entries.mapM Entry.node?).map fun nodes => (nodes, after) := by
  induction h generalizing n with
  | nil =>
    have hstop : (structMember limit <* gap) ('\x7d' :: after) = none := by
      rw [seqLeft_apply, structMember_close]
      rfl
    rw [List.nil_append, many_eq_nil hstop, Option.bind_some, List.mapM_nil]
    rfl
  | @cons entry entries text gaps rest htext hgaps hrest ih =>
    obtain ⟨c, tail, rfl, -, hbrace⟩ := htext.exists_cons
    simp only [List.length_append] at hlimit
    have hmember := htext.structMember (by omega : _ ≤ limit) (gaps ++ (rest ++ '\x7d' :: after))
    have hgap := gap_append hgaps (hrest.isGap_head? after)
    rw [List.append_assoc, List.append_assoc, List.mapM_cons]
    cases hnode : entry.node? with
    | none =>
      have hstop : (structMember limit <* gap) (c :: tail ++ (gaps ++ (rest ++ '\x7d' :: after))) = none := by
        rw [seqLeft_apply, hmember, hnode]
        rfl
      rw [many_eq_nil hstop, Option.bind_some, mark_eq_none (by rintro d ⟨⟩; exact hbrace hnode)]
      rfl
    | some node =>
      have hread : (structMember limit <* gap) (c :: tail ++ (gaps ++ (rest ++ '\x7d' :: after))) =
          some (node, rest ++ '\x7d' :: after) := by
        rw [seqLeft_apply, hmember, hnode, Option.map_some, Option.bind_some, hgap]
        rfl
      cases n with
      | zero => cases hn
      | succ n =>
        obtain ⟨⟨nodes, left⟩, hmany⟩ := exists_many (structMember limit <* gap) n (rest ++ '\x7d' :: after)
        have hrest := ih (Nat.le_of_succ_le_succ hn) (by omega)
        rw [many_succ_apply, hread, Option.bind_some, hmany]
        rw [hmany, Option.bind_some] at hrest
        have hcons := congrArg (Option.map fun r => (node :: r.1, r.2)) hrest
        rw [Option.map_map, Option.map_map] at hcons
        refine hcons.trans ?_
        cases entries.mapM Entry.node? <;> rfl

theorem EntriesText.length_le (h : EntriesText entries body) : entries.length ≤ body.length := by
  induction h with
  | nil => rfl
  | cons htext _ _ ih =>
    obtain ⟨c, tail, rfl, -⟩ := htext.exists_cons
    simp only [List.length_cons, List.length_append]
    omega

variable {name : List Char}

/-- The members in the braces after a keyword and a name are read up to the closing brace. -/
theorem braced_append {α : Type} (keyword : String) (inner : Reader α) {gaps beforeBrace afterBrace : List Char}
    (hgaps : Word isGap gaps) (hname : IsIdentifier name) (hbefore : ∀ c ∈ beforeBrace, isGap c = true)
    (hafter : ∀ c ∈ afterBrace, isGap c = true) (hbody : ∀ c ∈ body.head?, isGap c = false) :
    braced keyword inner limit (keyword.toList ++ (gaps ++ (name ++ (beforeBrace ++ '\x7b' ::
        (afterBrace ++ body))))) =
      ((many (inner <* gap) limit body).bind fun r => (mark '\x7d' r.2).map fun s => (r.1, s.2)).map
        fun r => ((String.ofList name, r.1), r.2) := by
  have hstops := isNamePart_head?_space hbefore (by decide : isNamePart '\x7b' = false) (afterBrace ++ body)
  have hword : Idl.name (name ++ (beforeBrace ++ '\x7b' :: (afterBrace ++ body))) =
      some (String.ofList name, beforeBrace ++ '\x7b' :: (afterBrace ++ body)) :=
    map_eq_some.2 ⟨name, identifier_append hname hstops, rfl⟩
  rw [braced, bind_of_eq_some (token_append _ _),
    bind_of_eq_some (gap1_append hgaps (isGap_head?_identifier hname _)), bind_of_eq_some hword,
    bind_of_eq_some (gap_append hbefore (by rintro c ⟨⟩; decide)),
    bind_of_eq_some (mark_cons _ _),
    bind_of_eq_some (gap_append hafter hbody)]
  obtain ⟨⟨members, left⟩, hread⟩ := exists_many (inner <* gap) limit body
  rw [bind_of_eq_some hread, hread, Option.bind_some]
  change (Option.bind (mark '\x7d' left) fun s => some ((String.ofList name, members), s.2)) = _
  cases mark '\x7d' left <;> rfl

/-- A struct is read with all of its members, or not at all. -/
theorem struct_append {gaps beforeBrace afterBrace : List Char} (hgaps : Word isGap gaps)
    (hname : IsIdentifier name) (hbefore : ∀ c ∈ beforeBrace, isGap c = true)
    (hafter : ∀ c ∈ afterBrace, isGap c = true)
    (hbody : EntriesText entries body) (hlimit : body.length ≤ limit) :
    struct limit ("struct".toList ++ (gaps ++ (name ++ (beforeBrace ++ '\x7b' ::
        (afterBrace ++ (body ++ '\x7d' :: after)))))) =
      (entries.mapM Entry.node?).map fun nodes => (.struct (String.ofList name) nodes, after) := by
  have hbraced : braced "struct" (structMember limit) limit ("struct".toList ++ (gaps ++ (name ++
      (beforeBrace ++ '\x7b' :: (afterBrace ++ (body ++ '\x7d' :: after)))))) = _ :=
    braced_append "struct" (structMember limit) hgaps hname hbefore hafter (hbody.isGap_head? after)
  rw [many_entries hbody after (hbody.length_le.trans hlimit) hlimit, Option.map_map] at hbraced
  cases hnodes : entries.mapM Entry.node? with
  | none =>
    rw [hnodes] at hbraced
    exact bind_of_eq_none hbraced
  | some nodes =>
    rw [hnodes] at hbraced
    exact bind_of_eq_some hbraced

end Structs

/-! ## Documents -/

section Documents

variable {limit : Nat} {name : List Char} {entries : List Entry} {cs : List Char}

/-- Apart from modules, typedefs and constants, a declaration without notes is a struct or a field. -/
theorem declaration_of_apart {word : List Char} (h : IsApart word) (inner : Reader (Option Node))
    (after : List Char) :
    declaration limit inner (word ++ after) = (struct limit (word ++ after)).or (field limit (word ++ after)) := by
  have hmodule : braced "module" inner limit (word ++ after) = none :=
    bind_of_eq_none (h.token (by decide) after)
  have htypedef : typedef limit (word ++ after) = none := bind_of_eq_none (h.token (by decide) after)
  rw [declaration, annotated_apply (h.head after), orElse_apply, bind_of_eq_none hmodule, Option.none_or,
    orElse_apply, orElse_apply, htypedef, Option.none_or, orElse_apply, constant_of_apart h, Option.none_or]

/-- A struct with its semicolon is read with all of its members, or not at all: it is no field then either. -/
theorem item_structText (depth : Nat) (h : StructText name entries cs) (hlimit : cs.length ≤ limit)
    (rest : List Char) :
    item limit (depth + 1) (cs ++ rest) =
      (entries.mapM Entry.node?).map fun nodes => (some (.struct (String.ofList name) nodes), rest) := by
  cases h with
  | @mk gaps beforeBrace afterBrace body space hgaps hname hbefore hafter hbody hspace =>
    have hapart : IsApart "struct".toList := by decide
    simp only [List.append_assoc, List.cons_append, List.length_append, List.length_cons,
      List.nil_append] at hlimit ⊢
    have hinclude (more : List Char) :
        (includeFile *> pure none : Reader (Option Node)) ("struct".toList ++ more) = none := by
      rw [seqRight_eq_bind]
      exact bind_of_eq_none (bind_of_eq_none (hapart.token (by decide) more))
    rw [item, orElse_apply, hinclude, Option.none_or, map_apply, seqLeft_apply, declaration_of_apart hapart,
      struct_append hgaps hname hbefore hafter hbody (by omega)]
    cases entries.mapM Entry.node? with
    | some nodes =>
      rw [Option.map_some, Option.some_or, Option.bind_some, semicolon, gap_mark_append hspace (by decide),
        if_pos rfl]
      rfl
    | none =>
      have hstruct : IsIdentifier "struct".toList := isIdentifier_of_checks (by decide) (by decide)
      have hphrase (more : List Char) : phraseType ("struct".toList ++ more) = none :=
        phraseType_eq_none (token_eq_none _ _ (by decide) (by decide) more)
          (token_eq_none _ _ (by decide) (by decide) more)
      have htype := typeSpec_of_name limit hapart.unbracketed (hphrase _) hstruct (isGap_head?_gaps hgaps
        (name ++ (beforeBrace ++ '\x7b' :: (afterBrace ++ (body ++ '\x7d' :: (space ++ ';' :: rest))))))
      have hfield := field_append hbefore (by decide) hgaps hname (by decide)
        (isNamePart_head?_space hbefore (by decide) _) htype
      rw [Option.map_none, Option.none_or, hfield, Option.bind_some, semicolon,
        gap_mark_append hbefore (by decide), if_neg (by decide)]
      rfl

/-- A document of one struct is accepted unless the name of a member clashes with the spelling of its type. If it
is accepted, each member with a spelled type is a field of the primitive type. -/
theorem nodes_of_structText {document before after : List Char} (hbefore : ∀ c ∈ before, isGap c = true)
    (hafter : ∀ c ∈ after, isGap c = true) (hdocument : stripComments document = before ++ (cs ++ after))
    (h : StructText name entries cs) :
    nodes document = match entries.mapM Entry.node? with
      | some nodes => .ok [.struct (String.ofList name) nodes]
      | none => .error (.malformed "message definition" (String.ofList document)) := by
  have hlength : before.length + (cs.length + after.length) ≤ document.length := by
    have hle := length_strip_le .code document
    rwa [show strip .code document = _ from hdocument, List.length_append, List.length_append] at hle
  obtain ⟨c, tail, rfl, hc⟩ : ∃ c tail, cs = c :: tail ∧ isGap c = false := by
    cases h
    exact ⟨_, _, rfl, by decide⟩
  obtain ⟨limit, hlimit⟩ : ∃ limit, document.length = limit + 1 :=
    Nat.exists_eq_add_one.2 (by rw [List.length_cons] at hlength; omega)
  have hitem := item_structText limit h (by omega : (c :: tail).length ≤ limit + 1) after
  have hgap : gap (before ++ (c :: tail ++ after)) = some ((), c :: tail ++ after) :=
    gap_append hbefore (by rintro d ⟨⟩; exact hc)
  have hitems : items (limit + 1) (stripComments document) =
      (many (item (limit + 1) (limit + 1) <* gap) (limit + 1) (c :: tail ++ after)).map
        fun r => (r.1.filterMap id, r.2) := by
    rw [items, hdocument, bind_of_eq_some hgap]
    exact map_apply _ _ _
  rw [nodes, hlimit, whole?, hitems, many_succ_apply, seqLeft_apply, hitem]
  cases entries.mapM Entry.node? with
  | none => rfl
  | some nodes =>
    have halike : Alike 1 0 0 (item (limit + 1) (limit + 1)) (item (limit + 1) (limit + 1)) :=
      alike_item_self (Nat.zero_le _) (Nat.zero_le _) (limit + 1)
    have hend : (item (limit + 1) (limit + 1) <* gap) [] = none := by
      rw [seqLeft_apply, halike.eq_none_of_nil]
      rfl
    have hafter : gap after = some ((), []) := by
      simpa using gap_append hafter (by simp : ∀ c ∈ [].head?, isGap c = false)
    rw [Option.map_some, Option.bind_some, hafter, Option.map_some, Option.bind_some, many_eq_nil hend]
    rfl

end Documents

/-- A name that starts with a keyword is one like any other where no longer spelling could go on. -/
theorem nodes_of_structText_of_longitude :
    nodes "struct S \x7b unsigned\tlong x; long longitude; // degrees\n\x7d;".toList =
      .ok [.struct "S" [
        .field { type := "uint32", name := "x" },
        .field { type := "int32", name := "longitude" }]] := by
  have hspace : Word isGap [' '] := word_of_all (by decide) (by decide)
  have htab : Word isGap ['\t'] := word_of_all (by decide) (by decide)
  have hunsigned : PhraseText (Spelling.words .unsignedLong) ("unsigned".toList ++ (['\t'] ++ "long".toList)) :=
    .cons "unsigned" htab (.last "long")
  have hlong : PhraseText (Spelling.words .long) "long".toList := .last "long"
  have hx : (Entry.spelled .unsignedLong ['x']).Text "unsigned\tlong x;".toList :=
    .spelled hunsigned hspace (isIdentifier_of_checks rfl rfl) (List.forall_mem_nil _)
  have hname : IsIdentifier "longitude".toList := isIdentifier_of_checks (by decide +kernel) (by decide +kernel)
  have hlongitude : (Entry.spelled .long "longitude".toList).Text "long longitude;".toList :=
    .spelled hlong hspace hname (List.forall_mem_nil _)
  have hend : Word isGap [' ', '\n'] := word_of_all (by decide) (by decide)
  have hbody := EntriesText.cons hx hspace.all (.cons hlongitude hend.all .nil)
  have hstruct := StructText.mk hspace (isIdentifier_of_checks rfl rfl : IsIdentifier ['S']) hspace.all hspace.all
    hbody (List.forall_mem_nil _)
  exact nodes_of_structText (List.forall_mem_nil _) (List.forall_mem_nil _) (by decide +kernel) hstruct

/-- A name that starts with `long` is lost after `unsigned long`. -/
theorem not_nodes_of_unsignedLongitude :
    nodes "struct S \x7b unsigned long longitude; \x7d;".toList =
      .error (.malformed "message definition" "struct S \x7b unsigned long longitude; \x7d;") := by
  decide +kernel

end RosSchema.Idl
