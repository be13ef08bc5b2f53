import RosSchema.Proofs.Idl.PrintedMembers

/-!
# Printed documents read back

A declaration is read off its words before any other words, by induction on how it is printed. A document of
such words, with gaps between them, is therefore read as the declarations it was printed for.
-/

namespace RosSchema.Idl

open Reader

variable {word name : List Char} {words more : List (List Char)} {limit : Nat}

/-! ## Braces -/

theorem fails_braced {α : Type} {keyword : String} {inner : Reader α}
    (hkeyword : keyword.toList.all (!isGap ·) = true) (hword : opens word = true) (hne : word ≠ keyword.toList) :
    Fails (At (word :: words)) (braced keyword inner limit) :=
  fails_keyword hkeyword (gapless_of_opens hword) hne

/-- A keyword, a name and members in braces are read when every member is and none starts with the brace at
the end. -/
theorem reads_braced {α γ : Type} {keyword : String} {inner : Reader α} {parts : List (γ × List (List Char))}
    (value : γ → α) (hname : IsName name)
    (hinner : ∀ part ∈ parts, ∀ rest, Reads (At (part.2 ++ rest)) inner (value part.1) (Behind rest))
    (hstop : ∀ rest, Fails (At (['\x7d'] :: rest)) inner) (hlimit : parts.length ≤ limit) :
    Reads (At (keyword.toList :: name :: ['\x7b'] :: parts.flatMap Prod.snd ++ ['\x7d'] :: more))
      (braced keyword inner limit) (String.ofList name, parts.map fun part => value part.1) (Behind more) := by
  have hmany : Reads (At (parts.flatMap Prod.snd ++ ['\x7d'] :: more)) (many (inner <* gap) limit)
      (parts.map fun part => value part.1) (At (['\x7d'] :: more)) := by
    refine Reads.many (K := fun parts => At (parts.flatMap Prod.snd ++ ['\x7d'] :: more)) (fun part hpart rest => ?_)
      (hstop more).seqLeft hlimit
    rw [List.flatMap_cons, List.append_assoc]
    exact (hinner part hpart _).seqLeft reads_gap
  exact (reads_token keyword).bind (reads_gap1.bind ((reads_name hname).bind (reads_gap.bind (reads_mark.bind
    (reads_gap.bind (hmany.bind (reads_mark.bind (.pure _))))))))

/-! ## Other starts -/

section Stops

variable (h : ∀ c ∈ first? words, isNameStart c = false)
include h

theorem fails_typedName : Fails (At words) (typedName limit) := by
  have hstring : Fails (At words) (boundedString limit) :=
    ((fails_token_of_start (by decide) h).seqRight.orElse (fails_token_of_start (by decide) h).seqRight).bind
  have hphrase : Fails (At words) phraseType := by
    refine fails_phraseType_of fun s hs _ => (fails_token_of_start ?_ h).bind
    exact (show ∀ s ∈ phraseStarts, s.toList.head?.any isNameStart = true by decide) s hs
  have hsequence : Fails (At words) (sequenceType limit) := (fails_token_of_start (by decide) h).bind
  exact (hsequence.orElse (hstring.orElse (hphrase.bind.orElse (fails_scopedName h).bind))).bind

/-- Nothing that a struct holds starts with what no name starts with. -/
theorem fails_structMember (hnote : '@' ∉ first? words) : Fails (At words) (structMember limit) := by
  have hconstant : Fails (At words) (constant limit) := (fails_token_of_start (by decide) h).bind
  have hfield : Fails (At words) (field limit) := (fails_typedName h).map _
  exact .bind_of_reads (.many_nil (fails_note hnote).seqLeft limit) (hconstant.orElse hfield).seqLeft.bind

/-- No declaration starts with what no name starts with. -/
theorem fails_item (hnote : '@' ∉ first? words) (hinclude : '#' ∉ first? words) (depth : Nat) :
    Fails (At words) (item limit depth) := by
  cases depth with
  | zero => exact fun _ _ => rfl
  | succ depth =>
    have hstart {s : String} (hs : s.toList.head?.any isNameStart = true) : Fails (At words) (token s) :=
      fails_token_of_start hs h
    have hmodule : Fails (At words) (braced "module" (item limit depth) limit) := (hstart (by decide)).bind
    have hstruct : Fails (At words) (struct limit) := (hstart (by decide)).bind.bind
    have htypedef : Fails (At words) (typedef limit) := (hstart (by decide)).bind
    have hconstant : Fails (At words) (constant limit) := (hstart (by decide)).bind
    have hfield : Fails (At words) (field limit) := (fails_typedName h).map _
    have hdeclaration : Fails (At words) (declaration limit (item limit depth)) :=
      .bind_of_reads (.many_nil (fails_note hnote).seqLeft limit)
        (hmodule.bind.orElse (hstruct.orElse (htypedef.orElse (hconstant.orElse hfield)))).bind
    have hfile : Fails (At words) includeFile := (fails_token (c := '#') rfl hinclude).bind
    exact hfile.seqRight.orElse (hdeclaration.seqLeft.map some)

end Stops

/-! ## Lengths -/

theorem length_le_of_flatten (h : words.flatten.length ≤ limit) : ∀ word ∈ words, word.length ≤ limit :=
  fun _ hword => (List.sublist_flatten_of_mem hword).length_le.trans h

section Parts

variable {γ : Type} {parts : List (γ × List (List Char))}

theorem length_part_le {part : γ × List (List Char)} (h : part ∈ parts) :
    part.2.flatten.length ≤ (parts.flatMap Prod.snd).flatten.length := by
  induction parts with
  | nil => cases h
  | cons first others ih =>
    rw [List.flatMap_cons, List.flatten_append, List.length_append]
    rcases List.mem_cons.1 h with rfl | h
    · omega
    · have hle := ih h
      omega

theorem length_parts_le (h : ∀ part ∈ parts, 0 < part.2.flatten.length) :
    parts.length ≤ (parts.flatMap Prod.snd).flatten.length := by
  induction parts with
  | nil => simp
  | cons first others ih =>
    obtain ⟨hfirst, hothers⟩ := List.forall_mem_cons.1 h
    have hle := ih hothers
    rw [List.flatMap_cons, List.flatten_append, List.length_append, List.length_cons]
    omega

end Parts

theorem PrintsMember.length_pos {node : Node} (h : PrintsMember node words) : 0 < words.flatten.length := by
  cases h <;> simp

theorem Prints.length_pos {node : Node} (h : Prints node words) : 0 < words.flatten.length := by
  cases h with
  | member h => exact h.length_pos
  | _ => simp

theorem PrintsMember.not_mem_first? {node : Node} (h : PrintsMember node words) : '#' ∉ first? (words ++ more) := by
  cases h with
  | field hm =>
    obtain ⟨first, rest, rfl, hopens, -⟩ := hm.startsMember
    exact not_mem_first?_of_opens hopens (by decide)
  | default _ _ => rintro ⟨⟩
  | constant _ _ _ => rintro ⟨⟩

/-! ## Declarations -/

/-- The words of a struct are read as that struct. -/
theorem reads_struct {parts : List (Node × List (List Char))} (hname : IsName name)
    (hparts : ∀ part ∈ parts, PrintsMember part.1 part.2)
    (hlimit : (parts.flatMap Prod.snd).flatten.length ≤ limit) :
    Reads (At ("struct".toList :: name :: ['\x7b'] :: parts.flatMap Prod.snd ++ ['\x7d'] :: more)) (struct limit)
      (.struct (String.ofList name) (parts.map Prod.fst)) (Behind more) := by
  have hinner : ∀ part ∈ parts, ∀ rest, Reads (At (part.2 ++ rest)) (structMember limit) part.1 (Behind rest) :=
    fun part hpart rest => reads_printsMember (hparts part hpart)
      (length_le_of_flatten ((length_part_le hpart).trans hlimit)) fun _ _ _ _ _ _ hread => hread
  have hstop (rest : List (List Char)) : Fails (At (['\x7d'] :: rest)) (structMember limit) :=
    fails_structMember (by rintro c ⟨⟩; decide) (by rintro ⟨⟩)
  have hlength := length_parts_le fun part hpart => (hparts part hpart).length_pos
  have hread : Reads (At ("struct".toList :: name :: ['\x7b'] :: parts.flatMap Prod.snd ++ ['\x7d'] :: more))
      (braced "struct" (structMember limit) limit) (String.ofList name, parts.map fun part => part.1) (Behind more) :=
    reads_braced id hname hinner hstop (hlength.trans hlimit)
  exact hread.bind (.pure _)

theorem filterMap_some_fst (parts : List (Node × List (List Char))) :
    (parts.map fun part => some part.1).filterMap id = parts.map Prod.fst := by
  rw [List.filterMap_map]
  exact congrFun List.filterMap_eq_map parts

/-- The words of a module are read as that module when those of its members are. -/
theorem reads_module {parts : List (Node × List (List Char))} {inner : Reader (Option Node)} (hname : IsName name)
    (hinner : ∀ part ∈ parts, ∀ rest, Reads (At (part.2 ++ rest)) inner (some part.1) (Behind rest))
    (hstop : ∀ rest, Fails (At (['\x7d'] :: rest)) inner) (hlimit : parts.length ≤ limit) :
    Reads (At ("module".toList :: name :: ['\x7b'] :: parts.flatMap Prod.snd ++ ['\x7d'] :: more)) (do
        let (name, members) ← braced "module" inner limit
        return .module name (members.filterMap id))
      (Node.module (String.ofList name) (parts.map Prod.fst)) (Behind more) := by
  have hread : Reads (At ("module".toList :: name :: ['\x7b'] :: parts.flatMap Prod.snd ++ ['\x7d'] :: more))
      (braced "module" inner limit) (String.ofList name, parts.map fun part => some part.1) (Behind more) :=
    reads_braced some hname hinner hstop hlimit
  have hresult : Reads (Behind more)
      (pure (.module (String.ofList name) ((parts.map fun part => some part.1).filterMap id)))
      (Node.module (String.ofList name) (parts.map Prod.fst)) (Behind more) := by
    rw [filterMap_some_fst]
    exact .pure _
  exact hread.bind hresult

/-- A declaration that is no include is read with its semicolon. -/
theorem reads_item_succ {T : List Char → Prop} {node : Node} {depth : Nat}
    (hdeclaration : Reads (At words) (declaration limit (item limit depth) <* semicolon) node T)
    (hinclude : '#' ∉ first? words) : Reads (At words) (item limit (depth + 1)) (some node) T := by
  have hfile : Fails (At words) includeFile := (fails_token (c := '#') rfl hinclude).bind
  exact (hdeclaration.map some).orElse_right hfile.seqRight

/-- A declaration with no note is read when the alternative for its keyword is. -/
theorem reads_item_opened {p : Reader Node} {node : Node} {depth : Nat}
    (hp : declaration limit (item limit depth) = annotated limit p) (hopens : opens word = true)
    (hread : Reads (At (word :: words)) p node (Behind ([';'] :: more))) :
    Reads (At (word :: words)) (item limit (depth + 1)) (some node) (Behind more) := by
  have hdeclaration : Reads (At (word :: words)) (annotated limit p) node (Behind ([';'] :: more)) :=
    reads_annotated hread (not_mem_first?_of_opens hopens (by decide))
  rw [← hp] at hdeclaration
  exact reads_item_succ (hdeclaration.seqLeft reads_semicolon) (not_mem_first?_of_opens hopens (by decide))

theorem length_body_lt (keyword name : List Char) (words : List (List Char)) :
    words.flatten.length < (keyword :: name :: ['\x7b'] :: words ++ [['\x7d'], [';']]).flatten.length := by
  simp only [List.flatten_append, List.flatten_cons, List.length_append, List.length_cons]
  omega

/-- The words of a declaration are read as that declaration. -/
theorem reads_item {node : Node} (h : Prints node words) {depth : Nat} (hlimit : words.flatten.length ≤ limit)
    (hdepth : words.flatten.length ≤ depth) (more : List (List Char)) :
    Reads (At (words ++ more)) (item limit depth) (some node) (Behind more) := by
  -- a member has fewer characters than its module, so the depth that the words allow goes down with it
  obtain ⟨depth, rfl⟩ : ∃ d, depth = d + 1 := ⟨depth - 1, by have := h.length_pos; omega⟩
  induction h generalizing depth more with
  | @member node words hmember =>
    have hread : Reads (At (words ++ more)) (declaration limit (item limit depth) <* semicolon) node
        (Behind more) := by
      rw [declaration, annotated_seqLeft]
      refine reads_printsMember hmember (length_le_of_flatten hlimit) fun _ _ _ _ hopens houter hread => ?_
      exact .orElse_right (.bind (fails_braced (by decide) hopens (houter _ (by decide))))
        (.orElse_right (.bind (fails_braced (by decide) hopens (houter _ (by decide))))
          (.orElse_right (fails_keyword (by decide) (gapless_of_opens hopens) (houter _ (by decide))) hread))
    exact reads_item_succ hread hmember.not_mem_first?
  | @typedef m words hm =>
    have hopens : opens "typedef".toList = true := by decide
    have hmember : Reads (At (words ++ [';'] :: more)) (typedName limit) m (Behind ([';'] :: more)) :=
      reads_typedName hm (fun word hword => length_le_of_flatten hlimit word (by simp [hword])) (by rintro ⟨⟩)
    have hread : Reads (At ("typedef".toList :: words ++ [';'] :: more)) (Idl.typedef limit) (.typedef m)
        (Behind ([';'] :: more)) := (reads_token "typedef").bind (reads_gap1.bind (hmember.bind (.pure _)))
    rw [List.append_assoc]
    exact reads_item_opened rfl hopens (.orElse_right (.bind (fails_braced (by decide) hopens (by decide)))
      (.orElse_right (.bind (fails_braced (by decide) hopens (by decide))) hread.orElse_left))
  | @struct name parts hname hparts =>
    have hopens : opens "struct".toList = true := by decide
    have hbody := length_body_lt "struct".toList name (parts.flatMap Prod.snd)
    rw [List.append_assoc]
    exact reads_item_opened rfl hopens (.orElse_right (.bind (fails_braced (by decide) hopens (by decide)))
      (.orElse_left (reads_struct hname hparts (hbody.le.trans hlimit))))
  | @module name parts hname hparts ih =>
    have hopens : opens "module".toList = true := by decide
    have hbody := length_body_lt "module".toList name (parts.flatMap Prod.snd)
    have hinner : ∀ part ∈ parts, ∀ rest, Reads (At (part.2 ++ rest)) (item limit depth) (some part.1)
        (Behind rest) := by
      intro part hpart rest
      have hpart' := length_part_le hpart
      have hpos := (hparts part hpart).length_pos
      obtain ⟨d, rfl⟩ : ∃ d, depth = d + 1 := ⟨depth - 1, by omega⟩
      exact ih part hpart (by omega) rest d (by omega)
    have hstop (rest : List (List Char)) : Fails (At (['\x7d'] :: rest)) (item limit depth) :=
      fails_item (by rintro c ⟨⟩; decide) (by rintro ⟨⟩) (by rintro ⟨⟩) depth
    have hlength := length_parts_le fun part hpart => (hparts part hpart).length_pos
    rw [List.append_assoc]
    exact reads_item_opened rfl hopens (.orElse_left (reads_module hname hinner hstop (by omega)))

/-! ## Texts of words -/

theorem isToken_of_all (h : (!word.isEmpty && word.all isPlain) = true) : IsToken word := by
  rw [Bool.and_eq_true] at h
  exact isToken_of_plain (word_of_all (by simpa using h.1) h.2)

theorem ElementWords.isToken {type : String} {stringBound : Option Literal}
    (h : ElementWords type stringBound words) : ∀ word ∈ words, IsToken word := by
  cases h with
  | named hname => simpa using isToken_of_plain hname.plain
  | bounded hkeyword hword =>
    have hkeyword : IsToken type.toList := by rcases hkeyword with rfl | rfl <;> exact isToken_of_all (by decide)
    simp only [List.forall_mem_cons]
    exact ⟨hkeyword, isToken_of_all (by decide), isToken_of_plain hword.plain, isToken_of_all (by decide), by simp⟩

theorem MemberWords.isToken {m : Member} (h : MemberWords m words) : ∀ word ∈ words, IsToken word := by
  cases h with
  | single htype hname =>
    simp only [List.forall_mem_append, List.forall_mem_cons]
    exact ⟨htype.isToken, isToken_of_plain hname.scoped.plain, by simp⟩
  | array htype hname hword =>
    simp only [List.forall_mem_append, List.forall_mem_cons]
    exact ⟨htype.isToken, isToken_of_plain hname.scoped.plain, isToken_of_all (by decide),
      isToken_of_plain hword.plain, isToken_of_all (by decide), by simp⟩
  | sequence htype hname =>
    simp only [List.forall_mem_append, List.forall_mem_cons]
    exact ⟨⟨isToken_of_all (by decide), isToken_of_all (by decide), htype.isToken⟩, isToken_of_all (by decide),
      isToken_of_plain hname.scoped.plain, by simp⟩
  | boundedSequence htype hname hword =>
    simp only [List.forall_mem_append, List.forall_mem_cons]
    exact ⟨⟨isToken_of_all (by decide), isToken_of_all (by decide), htype.isToken⟩, isToken_of_all (by decide),
      isToken_of_plain hword.plain, isToken_of_all (by decide), isToken_of_plain hname.scoped.plain, by simp⟩

theorem PrintsMember.isToken {node : Node} (h : PrintsMember node words) : ∀ word ∈ words, IsToken word := by
  cases h with
  | field hm =>
    simp only [List.forall_mem_append, List.forall_mem_cons]
    exact ⟨hm.isToken, isToken_of_all (by decide), by simp⟩
  | default hm hword =>
    simp only [List.forall_mem_append, List.forall_mem_cons]
    exact ⟨⟨isToken_of_all (by decide), isToken_of_all (by decide), isToken_of_all (by decide),
      isToken_of_all (by decide), hword.isToken, isToken_of_all (by decide), hm.isToken⟩,
      isToken_of_all (by decide), by simp⟩
  | constant htype hname hword =>
    simp only [List.forall_mem_append, List.forall_mem_cons]
    exact ⟨⟨isToken_of_all (by decide), htype.isToken⟩, isToken_of_plain hname.scoped.plain,
      isToken_of_all (by decide), hword.isToken, isToken_of_all (by decide), by simp⟩

theorem isToken_braced {keyword name : List Char} {parts : List (Node × List (List Char))}
    (hkeyword : (!keyword.isEmpty && keyword.all isPlain) = true) (hname : IsName name)
    (hparts : ∀ part ∈ parts, ∀ word ∈ part.2, IsToken word) :
    ∀ word ∈ keyword :: name :: ['\x7b'] :: parts.flatMap Prod.snd ++ [['\x7d'], [';']], IsToken word := by
  have hbody : ∀ word ∈ parts.flatMap Prod.snd, IsToken word := by
    intro word hword
    obtain ⟨part, hpart, hword⟩ := List.mem_flatMap.1 hword
    exact hparts part hpart word hword
  simp only [List.forall_mem_append, List.forall_mem_cons]
  exact ⟨⟨isToken_of_all hkeyword, isToken_of_plain hname.scoped.plain, isToken_of_all (by decide), hbody⟩,
    isToken_of_all (by decide), isToken_of_all (by decide), by simp⟩

theorem Prints.isToken {node : Node} (h : Prints node words) : ∀ word ∈ words, IsToken word := by
  induction h with
  | member hmember => exact hmember.isToken
  | typedef hm =>
    simp only [List.forall_mem_append, List.forall_mem_cons]
    exact ⟨⟨isToken_of_all (by decide), hm.isToken⟩, isToken_of_all (by decide), by simp⟩
  | struct hname hparts => exact isToken_braced (by decide) hname fun part hpart => (hparts part hpart).isToken
  | module hname _ ih => exact isToken_braced (by decide) hname ih

/-- A text of words, with a line break at its end. -/
theorem Spaced.exists_at {text : List Char} (h : Spaced words text) (htokens : ∀ word ∈ words, IsToken word) :
    ∃ gaps, (∀ c ∈ gaps, isGap c = true) ∧ At words (text ++ gaps) := by
  induction h with
  | nil => exact ⟨[], by simp, .nil⟩
  | last word =>
    have hbreak : Word isGap ['\n'] := word_of_all (by decide) (by decide)
    exact ⟨['\n'], hbreak.all, .cons (htokens word (by simp)) hbreak .nil⟩
  | cons word hgaps _ ih =>
    obtain ⟨hword, hwords⟩ := List.forall_mem_cons.1 htokens
    obtain ⟨gaps, hgap, hrest⟩ := ih hwords
    refine ⟨gaps, hgap, ?_⟩
    rw [List.append_assoc, List.append_assoc]
    exact .cons hword hgaps hrest

/-- Every list of words can be written as a text. -/
theorem Spaced.intercalate {gaps : List Char} (h : Word isGap gaps) (words : List (List Char)) :
    Spaced words (gaps.intercalate words) := by
  induction words with
  | nil => exact .nil
  | cons word words ih =>
    cases words with
    | nil => simpa using Spaced.last word
    | cons next words =>
      have hcons : gaps.intercalate (word :: next :: words) = word ++ gaps ++ gaps.intercalate (next :: words) := by
        simp [List.intercalate, List.intersperse]
      rw [hcons]
      exact .cons word h ih

theorem At.length_le {cs : List Char} (h : At words cs) : words.flatten.length ≤ cs.length := by
  induction h with
  | nil => simp
  | cons _ _ _ ih =>
    rw [List.flatten_cons, List.length_append, List.length_append, List.length_append]
    omega

/-- Words and gaps hold no comments. -/
theorem At.strip_eq {cs : List Char} (h : At words cs) : strip .code cs = cs := by
  induction h with
  | nil => rw [strip]
  | @cons word gaps words cs hword hgaps _ ih =>
    have hplain : ∀ c ∈ gaps, c ≠ '/' ∧ c ≠ '"' := by
      intro c hc
      have hgap := hgaps.all c hc
      constructor <;> rintro rfl <;> exact absurd hgap (by decide)
    rw [hword.uncommented, (strip_plain_append hplain cs).1, ih]

/-! ## Documents -/

theorem reads_items {parts : List (Node × List (List Char))} (h : ∀ part ∈ parts, Prints part.1 part.2)
    (hlimit : (parts.flatMap Prod.snd).flatten.length ≤ limit) :
    Reads (At (parts.flatMap Prod.snd)) (items limit) (parts.map Prod.fst) (At []) := by
  have hmany : Reads (At (parts.flatMap Prod.snd)) (many (item limit limit <* gap) limit)
      (parts.map fun part => some part.1) (At []) := by
    have hlength := length_parts_le fun part hpart => (h part hpart).length_pos
    refine Reads.many (K := fun parts => At (parts.flatMap Prod.snd)) (fun part hpart rest => ?_)
      (fails_item (by simp) (by simp) (by simp) limit).seqLeft (hlength.trans hlimit)
    have hpart' := (length_part_le hpart).trans hlimit
    rw [List.flatMap_cons]
    exact (reads_item (h part hpart) hpart' hpart' _).seqLeft reads_gap
  rw [← filterMap_some_fst]
  exact reads_gap_at.bind (hmany.bind (.pure _))

/-- Declarations printed as words with gaps between them are read back as they are. -/
theorem nodes_of_prints {parts : List (Node × List (List Char))} {text : List Char}
    (h : ∀ part ∈ parts, Prints part.1 part.2) (htext : Spaced (parts.flatMap Prod.snd) text) :
    nodes text = .ok (parts.map Prod.fst) := by
  have htokens : ∀ word ∈ parts.flatMap Prod.snd, IsToken word := by
    intro word hword
    obtain ⟨part, hpart, hword⟩ := List.mem_flatMap.1 hword
    exact (h part hpart).isToken word hword
  -- with a line break at the end every word has a gap after it, and the break itself does not count
  obtain ⟨gaps, hgaps, hat⟩ := htext.exists_at htokens
  have hread : (nodes (text ++ gaps)).toOption = some (parts.map Prod.fst) := by
    obtain ⟨rest, hitems, hrest⟩ := reads_items h hat.length_le _ hat
    cases hrest
    rw [toOption_nodes, stripComments, hat.strip_eq]
    exact whole?_eq_some.2 hitems
  rw [nodes_append_gaps text hgaps (List.forall_mem_nil _), List.append_nil] at hread
  cases hnodes : nodes text with
  | error e =>
    rw [hnodes] at hread
    cases hread
  | ok all =>
    rw [hnodes] at hread
    exact congrArg Except.ok (Option.some.inj hread)

/-- A module with a constant and a struct that uses it. -/
theorem nodes_of_prints_geo :
    nodes ([' '].intercalate (["module", "geo", "\x7b", "const", "int32", "SIZE", "=", "-3", ";",
        "struct", "Path", "\x7b",
        "@default", "(", "value", "=", "\"a\\n\"", ")", "string", "<", "8", ">", "label", ";",
        "sequence", "<", "geo::Point", ",", "SIZE", ">", "points", ";", "\x7d", ";", "\x7d", ";"].map
          String.toList)) =
      .ok [.module "geo" [
        .constant { type := "int32", name := "SIZE", value := some (.value (.int (-3))), valueText := some "-3" },
        .struct "Path" [
          .field
            { type := "string"
              name := "label"
              stringBound := some (.value (.uint 8))
              defaultValue := some (.value (.string "a\n")) },
          .field
            { type := "geo::Point"
              name := "points"
              isArray := true
              arrayBound := some (.constant "SIZE") }]]] := by
  have hthree : LiteralWord "-3".toList (.value (.int (-3))) := by
    have hdigits : Word Char.isDigit "3".toList := word_of_all (by decide) (by decide)
    exact .integer (some .minus) hdigits (by decide) (by decide)
  have hsize : PrintsMember
      (.constant { type := "int32", name := "SIZE", value := some (.value (.int (-3))), valueText := some "-3" })
      ["const".toList, "int32".toList, "SIZE".toList, ['='], "-3".toList, [';']] :=
    .constant (.named (IsName.scoped (by decide))) (by decide) hthree
  have hvalue : LiteralWord "\"a\\n\"".toList (.value (.string "a\n")) := by
    have hbody : Spells "a\\n".toList "a\n".toList := .plain (by decide) (by decide) (.letter rfl .nil)
    exact .string hbody
  have height : BoundWord "8".toList (.value (.uint 8)) := by
    have hdigits : Word Char.isDigit "8".toList := word_of_all (by decide) (by decide)
    exact .count hdigits (by decide)
  have hlabel : PrintsMember _ ["@default".toList, ['('], "value".toList, ['='], "\"a\\n\"".toList, [')'],
      "string".toList, ['<'], "8".toList, ['>'], "label".toList, [';']] :=
    .default (.single (.bounded (.inl rfl) height) (by decide)) hvalue
  have hpoint : IsScopedName "geo::Point".toList := by
    have hfirst : IsName "geo".toList := by decide
    have hothers : ∀ part ∈ ["Point".toList], IsName part := by decide
    exact .mk hfirst hothers
  have hpoints : PrintsMember _ ["sequence".toList, ['<'], "geo::Point".toList, [','], "SIZE".toList, ['>'],
      "points".toList, [';']] :=
    .field (.boundedSequence (.named hpoint) (by decide) (.constant (IsName.scoped (by decide))))
  have hstruct := @Prints.struct "Path".toList [⟨_, _⟩, ⟨_, _⟩] (by decide)
    (List.forall_mem_cons.2 ⟨hlabel, List.forall_mem_singleton.2 hpoints⟩)
  have hmodule := @Prints.module "geo".toList [⟨_, _⟩, ⟨_, _⟩] (by decide)
    (List.forall_mem_cons.2 ⟨.member hsize, List.forall_mem_singleton.2 hstruct⟩)
  have hspace : Word isGap [' '] := word_of_all (by decide) (by decide)
  exact @nodes_of_prints [⟨_, _⟩] _ (List.forall_mem_singleton.2 hmodule) (Spaced.intercalate hspace _)

end RosSchema.Idl
