import RosSchema.Idl.Constants
import RosSchema.Idl.Grammar
import RosSchema.Proofs.Literal.Scalars
import RosSchema.Proofs.Text.Reading

/-!
# What documents declare

The grammar takes every name from an identifier and every value from a literal, gives only string types
a bound, and an array a length or a bound but not both. `written_of_nodes` says so of all members of
a document, however deep its modules are.
-/

namespace RosSchema

/-! ## What readers ensure -/

namespace Reader

variable {α β : Type} {P : α → Prop} {Q : β → Prop}

def Ensures (P : α → Prop) (p : Reader α) : Prop := ∀ cs a rest, p cs = some (a, rest) → P a

namespace Ensures

theorem pure {a : α} (h : P a) : Ensures P (Pure.pure a : Reader α) := by
  intro cs b rest hb
  obtain ⟨rfl, -⟩ := pure_eq_some.1 hb
  exact h

theorem bind {p : Reader α} {f : α → Reader β} (hp : Ensures P p) (hf : ∀ a, P a → Ensures Q (f a)) :
    Ensures Q (p >>= f) := by
  intro cs b rest hb
  obtain ⟨a, mid, ha, hb⟩ := bind_eq_some.1 hb
  exact hf a (hp cs a mid ha) mid b rest hb

/-- Whatever comes first, the last reader of a sequence ensures the property. -/
theorem of_bind {p : Reader α} {f : α → Reader β} (hf : ∀ a, Ensures Q (f a)) : Ensures Q (p >>= f) := by
  intro cs b rest hb
  obtain ⟨a, mid, -, hb⟩ := bind_eq_some.1 hb
  exact hf a mid b rest hb

theorem map {f : α → β} {p : Reader α} (hp : Ensures P p) (hf : ∀ a, P a → Q (f a)) :
    Ensures Q (f <$> p) := by
  intro cs b rest hb
  obtain ⟨a, ha, rfl⟩ := map_eq_some.1 hb
  exact hf a (hp cs a rest ha)

theorem orElse {p q : Reader α} (hp : Ensures P p) (hq : Ensures P q) : Ensures P (p <|> q) := by
  intro cs a rest ha
  rcases orElse_eq_some.1 ha with ha | ⟨-, ha⟩
  · exact hp cs a rest ha
  · exact hq cs a rest ha

/-- What follows a value does not change it. -/
theorem seqLeft {p : Reader α} {q : Reader β} (hp : Ensures P p) : Ensures P (p <* q) :=
  hp.bind fun _ ha => of_bind fun _ => pure ha

theorem seqRight {p : Reader α} {q : Reader β} (hq : Ensures Q q) : Ensures Q (p *> q) :=
  of_bind fun _ => hq

theorem given {a : Option α} (h : ∀ b ∈ a, P b) : Ensures P (Reader.given a) := fun _ b _ hb =>
  h b (given_eq_some.1 hb).1

theorem guard (p : Prop) [Decidable p] : Ensures (fun _ => p) (guard p : Reader Unit) :=
  fun _ _ _ h => (guard_eq_some.1 h).1

theorem many {p : Reader α} (hp : Ensures P p) (limit : Nat) :
    Ensures (fun as => ∀ a ∈ as, P a) (Reader.many p limit) := by
  induction limit with
  | zero => exact pure (by simp)
  | succ n ih =>
    refine orElse ?_ (pure (by simp))
    refine hp.bind fun a ha => ih.bind fun as has => pure ?_
    exact List.forall_mem_cons.2 ⟨ha, has⟩

theorem separated {separator : Reader Unit} {p : Reader α} (hp : Ensures P p) (limit : Nat) :
    Ensures (fun as => ∀ a ∈ as, P a) (Reader.separated separator p limit) := by
  refine orElse ?_ (pure (by simp))
  refine hp.bind fun a ha => (hp.seqRight.many limit).bind fun as has => pure ?_
  exact List.forall_mem_cons.2 ⟨ha, has⟩

end Ensures

end Reader

namespace Idl

open Reader

/-! ## Written trees -/

/-- A literal that is the name of a constant or has a value of some primitive type. -/
def Literal.Written : Literal → Prop
  | .value v => ∃ p, Literal.Fits p v
  | .constant _ => True

def isScopePart (c : Char) : Bool := isNamePart c || c == ':'

structure Member.Written (m : Member) : Prop where
  type : m.type.toList.all isScopePart = true
  name : m.name.toList.all isNamePart = true
  count : m.arrayLength = none ∨ m.arrayBound = none
  string : m.stringBound.isSome → m.type = "string" ∨ m.type = "wstring"
  value : ∀ l ∈ m.value, l.Written
  default : ∀ l ∈ m.defaultValue, l.Written

inductive Node.Written : Node → Prop where
  | module {name : String} {children : List Node} (word : name.toList.all isNamePart = true)
      (inner : ∀ child ∈ children, Node.Written child) : Node.Written (.module name children)
  | struct {name : String} {children : List Node} (word : name.toList.all isNamePart = true)
      (inner : ∀ child ∈ children, Node.Written child) : Node.Written (.struct name children)
  | typedef {m : Member} (member : m.Written) : Node.Written (.typedef m)
  | field {m : Member} (member : m.Written) : Node.Written (.field m)
  | constant {m : Member} (member : m.Written) : Node.Written (.constant m)

/-! ## Names -/

theorem ensures_identifier : Ensures (fun word => word.all isNamePart = true) identifier :=
  fun _ _ _ h => List.all_eq_true.2 (identifier_eq_some.1 h).2.all

theorem ensures_name : Ensures (fun name => name.toList.all isNamePart = true) name :=
  ensures_identifier.map fun word hword => by rwa [String.toList_ofList]

theorem all_isScopePart {cs : List Char} (h : cs.all isNamePart = true) : cs.all isScopePart = true :=
  List.all_eq_true.2 fun c hc => by simp [isScopePart, List.all_eq_true.1 h c hc]

theorem ensures_scopePart : Ensures (fun word => word.all isScopePart = true) scopePart :=
  .of_bind fun _ => ensures_identifier.bind fun word hword => .pure (by
    simp [List.all_cons, all_isScopePart hword, isScopePart])

theorem ensures_scopedName (limit : Nat) :
    Ensures (fun name => name.toList.all isScopePart = true) (scopedName limit) := by
  refine ensures_identifier.bind fun first hfirst => ?_
  refine (ensures_scopePart.many limit).bind fun others hothers => .pure ?_
  rw [String.toList_ofList, List.all_append, all_isScopePart hfirst, Bool.true_and, List.all_flatten]
  exact List.all_eq_true.2 hothers

/-! ## Literals -/

theorem ensures_constantName (limit : Nat) : Ensures (fun l => l.1.Written) (constantName limit) :=
  .of_bind fun _ => .pure trivial

theorem fits_int {i : Int} (h : -(Nat.pow 2 63 : Nat) ≤ i ∧ i < (Nat.pow 2 63 : Nat)) :
    Literal.Fits .int64 (.int i) := by
  refine .signed i (-9223372036854775808) 9223372036854775807 rfl rfl ?_
  norm_num at h
  omega

theorem fits_uint {n : Nat} (h : n < Nat.pow 2 64) : Literal.Fits .uint64 (.uint n) := by
  refine .unsigned n 18446744073709551615 rfl rfl ?_
  norm_num at h
  omega

theorem fits_of_numeralValue? {n : Numeral} {v : Value} (h : numeralValue? n = some v) :
    ∃ p, Literal.Fits p v := by
  unfold numeralValue? at h
  split at h
  · dsimp only at h
    split at h
    · next hrange =>
      cases h
      exact ⟨_, fits_int (by simpa using hrange)⟩
    · split at h
      · next hrange =>
        cases h
        simp only [Bool.and_eq_true, decide_eq_true_eq] at hrange
        exact ⟨_, fits_uint (by omega)⟩
      · cases h
  · cases h
    exact ⟨.float64, .float _ rfl (Literal.isNaN_toBinary64 _)⟩

theorem ensures_stringLiteral (limit : Nat) : Ensures (fun l => l.1.Written) (stringLiteral limit) := by
  rw [stringLiteral]
  refine .of_bind fun _ => .of_bind fun _ => .of_bind fun _ => .of_bind fun _ => .pure ?_
  exact ⟨.string, .string _ rfl⟩

theorem ensures_boolLiteral : Ensures (fun l => l.1.Written) boolLiteral := by
  have hchoice (s : String) (b : Bool) : Ensures (fun l : Literal × Option (List Char) => l.1.Written) (do
      token s
      return (.value (.bool b), some s.toList)) :=
    .of_bind fun _ => .pure ⟨.bool, .bool b rfl⟩
  exact (((hchoice _ _).orElse ((hchoice _ _).orElse ((hchoice _ _).orElse (hchoice _ _))))).seqLeft

theorem ensures_hexLiteral : Ensures (fun l => l.1.Written) hexLiteral := by
  rw [hexLiteral]
  refine .of_bind fun _ => .of_bind fun _ => .of_bind fun _ => .of_bind fun n => ?_
  exact (Ensures.guard (n < Nat.pow 2 64)).bind fun _ hn => .pure ⟨.uint64, fits_uint hn⟩

theorem ensures_numeralLiteral : Ensures (fun l => l.1.Written) numeralLiteral := by
  rw [numeralLiteral]
  refine .of_bind fun n => ?_
  exact (Ensures.given fun v hv => fits_of_numeralValue? hv).bind fun v hv => .pure hv

/-- A literal of a document is written, whichever form it has. -/
theorem ensures_literal (limit : Nat) : Ensures (fun l => l.1.Written) (literal limit) :=
  (ensures_stringLiteral limit).orElse (ensures_boolLiteral.orElse (ensures_hexLiteral.orElse
    (ensures_numeralLiteral.orElse (ensures_constantName limit))))

/-! ## Members -/

structure TypeSpec.Written (spec : TypeSpec) : Prop where
  type : spec.type.toList.all isScopePart = true
  string : spec.stringBound.isSome → spec.type = "string" ∨ spec.type = "wstring"

theorem ensures_boundedString (limit : Nat) : Ensures TypeSpec.Written (boundedString limit) := by
  have htype : Ensures (fun type : String => type = "string" ∨ type = "wstring")
      ((token "wstring" *> pure "wstring") <|> (token "string" *> pure "string")) :=
    (Ensures.seqRight (.pure (.inr rfl))).orElse (Ensures.seqRight (.pure (.inl rfl)))
  have hall {type : String} (h : type = "string" ∨ type = "wstring") :
      type.toList.all isScopePart = true := by
    rcases h with rfl | rfl <;> decide
  exact htype.bind fun type htype => .of_bind fun _ => .of_bind fun _ => .of_bind fun _ =>
    .of_bind fun _ => .pure ⟨hall htype, fun _ => htype⟩

theorem ensures_phraseType : Ensures (fun type => type.toList.all isScopePart = true) phraseType := by
  have hchoice (words : List String) (type : String) (h : type.toList.all isScopePart = true) :
      Ensures (fun type : String => type.toList.all isScopePart = true) (phrase words *> pure type) :=
    Ensures.seqRight (.pure h)
  exact ((hchoice _ _ (by decide)).orElse ((hchoice _ _ (by decide)).orElse
    ((hchoice _ _ (by decide)).orElse (hchoice _ _ (by decide))))).seqLeft

theorem all_keywordType {name : String} (h : name.toList.all isScopePart = true) :
    (keywordType name).toList.all isScopePart = true := by
  unfold keywordType
  split <;> first | decide | exact h

theorem ensures_elementType (limit : Nat) : Ensures TypeSpec.Written (elementType limit) := by
  refine (ensures_boundedString limit).orElse (.orElse ?_ ?_)
  · exact ensures_phraseType.bind fun type htype => .pure ⟨htype, by simp⟩
  · exact (ensures_scopedName limit).bind fun type htype => .pure ⟨all_keywordType htype, by simp⟩

theorem ensures_typeSpec (limit : Nat) : Ensures TypeSpec.Written (typeSpec limit) := by
  refine .orElse ?_ (ensures_elementType limit)
  rw [sequenceType]
  refine .of_bind fun _ => .of_bind fun _ => (ensures_elementType limit).bind fun element h => ?_
  exact .of_bind fun _ => .of_bind fun _ => .of_bind fun _ => .pure ⟨h.type, h.string⟩

theorem TypeSpec.Written.member {spec : TypeSpec} (h : spec.Written) {name : String}
    (hname : name.toList.all isNamePart = true) {length : Option Literal} {m : Member}
    (hm : spec.member? name length = some m) : m.Written := by
  unfold TypeSpec.member? at hm
  dsimp only at hm
  split at hm
  · cases hm
  · cases hm
    exact ⟨h.type, hname, .inl rfl, h.string, by simp, by simp⟩
  · cases hm
    exact ⟨h.type, hname, .inr rfl, h.string, by simp, by simp⟩
  · cases hm
    exact ⟨h.type, hname, .inl rfl, h.string, by simp, by simp⟩

theorem ensures_typedName (limit : Nat) : Ensures Member.Written (typedName limit) := by
  have hdeclarator : Ensures (fun d => d.1.toList.all isNamePart = true) (declarator limit) :=
    ensures_name.bind fun name hname => .of_bind fun _ => .pure hname
  rw [typedName]
  refine (ensures_typeSpec limit).bind fun spec hspec => .of_bind fun _ => ?_
  exact hdeclarator.bind fun d hd => .given fun m hm => hspec.member hd hm

theorem ensures_constant (limit : Nat) : Ensures Node.Written (constant limit) := by
  rw [constant]
  refine .of_bind fun _ => .of_bind fun _ => (ensures_typeSpec limit).bind fun spec hspec => ?_
  refine .of_bind fun _ => .of_bind fun _ => ensures_name.bind fun name hname => .of_bind fun _ => ?_
  refine (ensures_literal limit).bind fun l hl => .pure (.constant ?_)
  exact ⟨hspec.type, hname, .inl rfl, hspec.string, by simpa using hl, by simp⟩

theorem ensures_typedef (limit : Nat) : Ensures Node.Written (typedef limit) :=
  .of_bind fun _ => .of_bind fun _ => (ensures_typedName limit).bind fun _ hm => .pure (.typedef hm)

theorem ensures_field (limit : Nat) : Ensures Node.Written (field limit) :=
  (ensures_typedName limit).map fun _ hm => .field hm

/-! ## Notes -/

def Note.Written (note : Note) : Prop := ∀ parameter ∈ note.parameters, parameter.2.Written

theorem ensures_note (limit : Nat) : Ensures Note.Written (note limit) := by
  have hparameter : Ensures (fun p => p.2.Written) (parameter limit) := by
    refine .orElse ?_ ?_
    · exact .of_bind fun _ => .of_bind fun _ => (ensures_literal limit).bind fun l hl => .pure hl
    · exact (ensures_literal limit).bind fun l hl => .pure hl
  have hparameters : Ensures (fun all => ∀ p ∈ all, p.2.Written) (parameters limit) := by
    rw [parameters]
    refine .of_bind fun _ => .of_bind fun _ => .of_bind fun _ => ?_
    exact (hparameter.separated limit).bind fun all hall => .of_bind fun _ => .of_bind fun _ => .pure hall
  rw [note]
  refine .of_bind fun _ => .of_bind fun name => ?_
  have hoptional : Ensures (fun all => ∀ p ∈ all.getD [], p.2.Written) (optional (parameters limit)) := by
    intro cs all rest hread
    rcases optional_eq_some.1 hread with ⟨some, rfl, hsome⟩ | ⟨-, rfl, -⟩
    · exact hparameters cs some rest hsome
    · simp
  exact hoptional.bind fun all hall => .pure hall

theorem written_of_annotatedDefault? {notes : List Note} (h : ∀ note ∈ notes, note.Written) {l : Literal}
    (hl : annotatedDefault? notes = some l) : l.Written := by
  obtain ⟨⟨key, value⟩, hmem, hsome⟩ := List.exists_of_findSome?_eq_some hl
  obtain ⟨note, hnote, hparameter⟩ := List.mem_flatMap.1 hmem
  dsimp only at hsome
  split at hsome
  · cases hsome
    exact h note (List.mem_filter.1 hnote).1 _ hparameter
  · cases hsome

theorem Node.Written.annotate {node : Node} (h : node.Written) {notes : List Note}
    (hnotes : ∀ note ∈ notes, note.Written) : (annotate notes node).Written := by
  cases h with
  | field member =>
    rw [Idl.annotate]
    split
    · next l hl =>
      refine .field ⟨member.type, member.name, member.count, member.string, member.value, ?_⟩
      rintro _ ⟨⟩
      exact written_of_annotatedDefault? hnotes hl
    · exact .field member
  | module word inner => exact .module word inner
  | struct word inner => exact .struct word inner
  | typedef member => exact .typedef member
  | constant member => exact .constant member

theorem ensures_annotated {limit : Nat} {p : Reader Node} (h : Ensures Node.Written p) :
    Ensures Node.Written (annotated limit p) :=
  ((ensures_note limit).seqLeft.many limit).bind fun _ hnotes =>
    h.bind fun _ hnode => .pure (hnode.annotate hnotes)

/-! ## Declarations -/

theorem ensures_braced {α : Type} {P : α → Prop} {keyword : String} {inner : Reader α}
    (h : Ensures P inner) (limit : Nat) :
    Ensures (fun all => all.1.toList.all isNamePart = true ∧ ∀ a ∈ all.2, P a)
      (braced keyword inner limit) := by
  rw [braced]
  refine .of_bind fun _ => .of_bind fun _ => ensures_name.bind fun name hname => .of_bind fun _ => ?_
  refine .of_bind fun _ => .of_bind fun _ => ?_
  exact (h.seqLeft.many limit).bind fun all hall => .of_bind fun _ => .pure ⟨hname, hall⟩

theorem ensures_struct (limit : Nat) : Ensures Node.Written (struct limit) := by
  refine (ensures_braced ?_ limit).bind fun all hall => .pure (.struct hall.1 hall.2)
  exact ensures_annotated (((ensures_constant limit).orElse (ensures_field limit)).seqLeft)

theorem ensures_declaration {limit : Nat} {inner : Reader (Option Node)}
    (h : Ensures (fun item => ∀ node ∈ item, Node.Written node) inner) :
    Ensures Node.Written (declaration limit inner) := by
  refine ensures_annotated (.orElse ?_ (.orElse (ensures_struct limit) (.orElse (ensures_typedef limit)
    (.orElse (ensures_constant limit) (ensures_field limit)))))
  refine (ensures_braced h limit).bind fun all hall => .pure (.module hall.1 ?_)
  intro child hchild
  obtain ⟨item, hitem, hsome⟩ := List.mem_filterMap.1 hchild
  exact hall.2 item hitem child hsome

/-- An item of a document is a written tree, if it is one, however deep its modules are. -/
theorem ensures_item (limit depth : Nat) :
    Ensures (fun item => ∀ node ∈ item, Node.Written node) (item limit depth) := by
  induction depth with
  | zero =>
    intro cs a rest h
    cases h
  | succ depth ih =>
    refine .orElse (.of_bind fun _ => .pure (by simp)) ?_
    exact ((ensures_declaration ih).seqLeft).map fun node hnode other hother => by
      obtain rfl := Option.some.inj hother
      exact hnode

/-- The trees of a document are written. -/
theorem written_of_nodes {document : List Char} {roots : List Node} (h : nodes document = .ok roots) :
    ∀ root ∈ roots, root.Written := by
  unfold nodes at h
  split at h
  · next all hall =>
    obtain rfl := Except.ok.inj h
    have hread := whole?_eq_some.1 hall
    rw [items] at hread
    obtain ⟨-, mid, -, hread⟩ := bind_eq_some.1 hread
    obtain ⟨found, rest, hmany, hfound⟩ := bind_eq_some.1 hread
    obtain ⟨rfl, -⟩ := pure_eq_some.1 hfound
    intro root hroot
    obtain ⟨item, hitem, hsome⟩ := List.mem_filterMap.1 hroot
    exact ((ensures_item _ _).seqLeft.many _) _ _ _ hmany item hitem root hsome
  · cases h

/-! ## Members of written trees -/

theorem exists_of_mem_constantsIn {path : List String} {nodes : List Node} {d : Declared}
    (h : d ∈ constantsIn path nodes) : ∃ node ∈ nodes, d ∈ node.constants path := by
  induction nodes with
  | nil => simp [constantsIn] at h
  | cons node nodes ih =>
    rw [constantsIn] at h
    rcases List.mem_append.1 h with h | h
    · exact ⟨node, List.mem_cons_self, h⟩
    · obtain ⟨other, hother, h⟩ := ih h
      exact ⟨other, List.mem_cons_of_mem _ hother, h⟩

theorem mem_constantsIn {path : List String} {nodes : List Node} {node : Node} (hnode : node ∈ nodes)
    {d : Declared} (h : d ∈ node.constants path) : d ∈ constantsIn path nodes := by
  induction nodes with
  | nil => cases hnode
  | cons first nodes ih =>
    rw [constantsIn]
    rcases List.mem_cons.1 hnode with rfl | hnode
    · exact List.mem_append_left _ h
    · exact List.mem_append_right _ (ih hnode)

theorem exists_of_mem_typedefsIn {nodes : List Node} {m : Member} (h : m ∈ typedefsIn nodes) :
    ∃ node ∈ nodes, m ∈ node.typedefs := by
  induction nodes with
  | nil => simp [typedefsIn] at h
  | cons node nodes ih =>
    rw [typedefsIn] at h
    rcases List.mem_append.1 h with h | h
    · exact ⟨node, List.mem_cons_self, h⟩
    · obtain ⟨other, hother, h⟩ := ih h
      exact ⟨other, List.mem_cons_of_mem _ hother, h⟩

namespace Node.Written

theorem constants {node : Node} (h : node.Written) :
    ∀ path, ∀ d ∈ node.constants path, d.member.Written := by
  induction h with
  | module word inner ih =>
    intro path d hd
    obtain ⟨child, hchild, hd⟩ := exists_of_mem_constantsIn hd
    exact ih child hchild _ d hd
  | struct word inner ih =>
    intro path d hd
    obtain ⟨child, hchild, hd⟩ := exists_of_mem_constantsIn hd
    exact ih child hchild _ d hd
  | constant member =>
    intro path d hd
    obtain rfl := List.mem_singleton.1 hd
    exact member
  | typedef => intro path d hd; cases hd
  | field => intro path d hd; cases hd

theorem typedefs {node : Node} (h : node.Written) : ∀ m ∈ node.typedefs, m.Written := by
  induction h with
  | module word inner ih =>
    intro m hm
    obtain ⟨child, hchild, hm⟩ := exists_of_mem_typedefsIn hm
    exact ih child hchild m hm
  | struct word inner ih =>
    intro m hm
    obtain ⟨child, hchild, hm⟩ := exists_of_mem_typedefsIn hm
    exact ih child hchild m hm
  | typedef member =>
    intro m hm
    obtain rfl := List.mem_singleton.1 hm
    exact member
  | constant => intro m hm; cases hm
  | field => intro m hm; cases hm

end Node.Written

end Idl

end RosSchema
