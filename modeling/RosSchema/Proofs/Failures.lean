import RosSchema.Proofs.Idl.Fields
import RosSchema.Proofs.Line.Unambiguous
import RosSchema.Proofs.Literal.Failures
import RosSchema.Schema

/-!
# Errors of definitions

Only the grammar of ROS 1 has an error for lines that are derived in several ways, and there are no such
lines. Each computation on the way from a text to its definitions keeps to the other errors, whatever
context it adds to them.
-/

namespace RosSchema

/-- Under its context an error is not about an ambiguous line. -/
def Error.IsCertain (e : Error) : Prop := ∀ line, e.innermost ≠ .ambiguousLine line

namespace Error

theorem IsLiteral.isCertain {e : Error} (h : e.IsLiteral) : e.IsCertain := by
  cases h <;> exact fun _ => nofun

theorem isCertain_malformed (context text : String) : (malformed context text).IsCertain := fun _ => nofun

theorem isCertain_badName (kind : NameKind) (name : String) : (badName kind name).IsCertain :=
  fun _ => nofun

theorem IsCertain.withLine {e : Error} (h : e.IsCertain) (line : String) : (e.withLine line).IsCertain := by
  unfold Error.withLine
  split
  · exact h
  · exact h

theorem IsCertain.withSection {e : Error} (h : e.IsCertain) (path : String) :
    (e.withSection path).IsCertain := h

end Error

open Error (IsCertain isCertain_malformed isCertain_badName)

/-! ## Lines -/

namespace Line

theorem Ros1.Derivation.field_fails (d : Ros1.Derivation) : FailsWith IsCertain d.field := by
  unfold Ros1.Derivation.field
  dsimp only
  split
  · exact .ite (.error (isCertain_badName _ _)) (.ok _)
  · refine .ite (.error (isCertain_badName _ _)) (.ite (.ok _) ?_)
    exact ((Literal.decodeScalar_fails _ _).mono fun _ => Error.IsLiteral.isCertain).bind fun _ => .ok _

/-- A line of ROS 1 has one derivation at most, so that it is not ambiguous. -/
theorem Ros1.field_fails (line : List Char) : FailsWith IsCertain (Ros1.field line) := by
  have hle := Ros1.length_derivations_le line
  rw [Ros1.field]
  rcases hline : Ros1.derivations line with _ | ⟨d, _ | ⟨e, ds⟩⟩
  · exact .error (isCertain_malformed _ _)
  · exact (Ros1.Derivation.field_fails d).mapError fun _ h => h.withLine _
  · simp [hline] at hle

theorem Ros2.count_fails (line digits : List Char) : FailsWith IsCertain (Ros2.count line digits) := by
  unfold Ros2.count
  split
  · exact .ok _
  · exact .error (isCertain_malformed _ _)

theorem Ros2.countMark_fails (line : List Char) (mark : ArrayMark (List Char)) :
    FailsWith IsCertain (Ros2.countMark line mark) := by
  cases mark with
  | any => exact .ok _
  | exactly digits => exact (Ros2.count_fails line digits).map _
  | atMost digits => exact (Ros2.count_fails line digits).map _

theorem Ros2.Declaration.field_fails (line : List Char) (d : Ros2.Declaration) :
    FailsWith IsCertain (d.field line) := by
  have scalar (type : String) (text : List Char) : FailsWith IsCertain (Literal.decodeScalar type text) :=
    (Literal.decodeScalar_fails type text).mono fun _ => Error.IsLiteral.isCertain
  have array (type : String) (text : List Char) : FailsWith IsCertain (Literal.decodeArray type text) :=
    (Literal.decodeArray_fails type text).mono fun _ => Error.IsLiteral.isCertain
  refine (FailsWith.optionMapM _ (Ros2.count_fails line)).bind fun bound => ?_
  refine (FailsWith.optionMapM _ (Ros2.countMark_fails line)).bind fun marks => ?_
  refine .ite (.error (isCertain_malformed _ _)) ?_
  cases d.ending with
  | assigned raw =>
    refine .ite (.error (isCertain_badName _ _)) (.ite (.error (isCertain_malformed _ _)) ?_)
    exact (scalar _ _).bind fun _ => .ok _
  | default raw =>
    refine .ite (.error (isCertain_badName _ _)) (.ite (.error (isCertain_malformed _ _)) ?_)
    refine .ite ?_ ?_
    · exact (array _ _).bind fun _ => .ok _
    · exact (scalar _ _).bind fun _ => .ok _
  | nothing => exact .ite (.error (isCertain_badName _ _)) (.ok _)

theorem Ros2.field_fails (line : List Char) : FailsWith IsCertain (Ros2.field line) := by
  unfold Ros2.field
  split
  · exact .error (isCertain_malformed _ _)
  · exact (Ros2.Declaration.field_fails line _).mapError fun _ h => h.withLine _

/-- A text fails as its lines do. -/
theorem Grammar.definitions_fails {P : Error → Prop} {g : Grammar} (h : ∀ line, FailsWith P (g.field line))
    (text : String) : FailsWith P (g.definitions text) :=
  .mapM fun _ _ => (FailsWith.mapM fun line _ => h line).bind fun _ => .ok _

end Line

theorem parseLines_fails (text : String) (d : Dialect) : FailsWith IsCertain (parseLines text d) := by
  cases d with
  | ros1 => exact Line.Grammar.definitions_fails Line.Ros1.field_fails text
  | ros2 => exact Line.Grammar.definitions_fails Line.Ros2.field_fails text
  | idl => exact .error fun _ => nofun

/-! ## References -/

theorem resolveType_fails (names : List String) (type : String) :
    FailsWith IsCertain (resolveType names type) := by
  unfold resolveType
  split
  · exact .error fun _ => nofun
  · exact .ok _
  · exact .error fun _ => nofun

theorem resolveReferences_fails (definitions : List Definition) :
    FailsWith IsCertain (resolveReferences definitions) := by
  refine .mapM fun d _ => (FailsWith.mapM fun f _ => ?_).bind fun _ => .ok _
  exact .ite ((resolveType_fails _ _).bind fun _ => .ok _) (.ok _)

/-! ## Documents -/

namespace Idl

theorem nodes_fails (document : List Char) : FailsWith IsCertain (nodes document) := by
  unfold nodes
  split
  · exact .ok _
  · exact .error (isCertain_malformed _ _)

theorem Typedefs.inline_fails (typedefs : Typedefs) (m : Member) : FailsWith IsCertain (typedefs.inline m) := by
  unfold Typedefs.inline
  split
  · exact .ok _
  · exact .ite (.error (isCertain_malformed _ _)) (.ok _)

theorem Typedefs.ofMembers_fails (members : List Member) :
    FailsWith IsCertain (Typedefs.ofMembers members) :=
  .foldlM (fun typedefs m => (Typedefs.inline_fails typedefs m).bind fun _ => .ok _) members []

namespace Scope

theorem substitute_fails (s : Scope) (l : Literal) (field parent : String) :
    FailsWith IsCertain (s.substitute l field parent) := by
  unfold substitute
  split
  · exact .ok _
  · split
    · exact .ok _
    · exact .error fun _ => nofun

theorem count_fails (s : Scope) (l : Option Literal) (m : Member) (parent : String) :
    FailsWith IsCertain (s.count l m parent) := by
  cases l with
  | none => exact .ok _
  | some l =>
    refine (substitute_fails s l m.name parent).bind fun c => ?_
    split
    · exact .ok _
    · exact .error fun _ => nofun

theorem coerce_fails (type : String) (isArray : Bool) (value : Value) :
    FailsWith IsCertain (Literal.coerce type isArray value) :=
  (Literal.coerce_fails type isArray value).mono fun _ => Error.IsLiteral.isCertain

theorem constantField_fails (s : Scope) (parent : String) (declared : Member) :
    FailsWith IsCertain (s.constantField parent declared) := by
  rw [constantField_eq]
  refine (Typedefs.inline_fails _ _).bind fun m => (count_fails _ _ _ _).bind fun bound => ?_
  refine .ite (.error (isCertain_malformed _ _)) ?_
  split
  · exact .error (isCertain_malformed _ _)
  · exact (substitute_fails _ _ _ _).bind fun v => (coerce_fails _ _ _).map _

theorem variableField_fails (s : Scope) (parent : String) (declared : Member) :
    FailsWith IsCertain (s.variableField parent declared) := by
  refine (Typedefs.inline_fails _ _).bind fun m => (count_fails _ _ _ _).bind fun bound =>
    (count_fails _ _ _ _).bind fun length => (count_fails _ _ _ _).bind fun most => ?_
  refine (FailsWith.optionMapM _ fun l => ?_).bind fun _ => .ok _
  exact (substitute_fails _ _ _ _).bind fun v => coerce_fails _ _ _

end Scope

theorem Constants.settle_fails (c : Constants) (n : Nat) (underWay : List Nat) (place : Nat)
    (done : Settled) : FailsWith IsCertain (c.settle n underWay place done) := by
  induction n generalizing underWay place done with
  | zero => exact .ok _
  | succ n ih =>
    unfold settle
    refine .ite (.ok _) ?_
    split
    · exact .ok _
    · refine (Typedefs.inline_fails _ _).bind fun shape => (FailsWith.foldlM (fun done name => ?_) _ _).bind
        fun done => (Scope.constantField_fails _ _ _).bind fun field => .ok _
      split
      · exact .ok _
      · exact .ite (.error fun _ => nofun) (ih _ _ _)

theorem Scope.ofNode_fails (root : Node) : FailsWith IsCertain (Scope.ofNode root) := by
  refine (Typedefs.ofMembers_fails _).bind fun typedefs => FailsWith.bind ?_ fun _ => .ok _
  exact (FailsWith.foldlM (fun done place => Constants.settle_fails _ _ _ _ _) _ _).bind fun _ => .ok _

namespace Scope

theorem definition_fails (s : Scope) (path : List String) (children : List Node) :
    FailsWith IsCertain (s.definition path children) := by
  refine (FailsWith.mapM fun field hfield => ?_).bind fun _ => .ok _
  obtain ⟨node, -, hnode⟩ := List.mem_filterMap.1 hfield
  cases node with
  | field m =>
    cases hnode
    exact variableField_fails _ _ _
  | constant m =>
    cases hnode
    exact constantField_fails _ _ _
  | _ => cases hnode

mutual

theorem flatten_fails (s : Scope) (path : List String) (node : Node) :
    FailsWith IsCertain (s.flatten path node) := by
  cases node with
  | struct name children =>
    rw [flatten]
    exact (flattenAll_fails s _ children).bind fun _ => (definition_fails s _ children).bind fun _ => .ok _
  | module name children =>
    rw [flatten]
    refine (flattenAll_fails s _ children).bind fun _ => .ite ?_ (.ok _)
    exact (definition_fails s _ children).bind fun _ => .ok _
  | typedef m => exact .ok _
  | field m => exact .ok _
  | constant m => exact .ok _

theorem flattenAll_fails (s : Scope) (path : List String) (nodes : List Node) :
    FailsWith IsCertain (s.flattenAll path nodes) := by
  cases nodes with
  | nil => exact .ok _
  | cons node rest =>
    rw [flattenAll]
    exact (flatten_fails s path node).bind fun _ => (flattenAll_fails s path rest).bind fun _ => .ok _

end

end Scope

theorem resolve_fails (roots : List Node) : FailsWith IsCertain (resolve roots) :=
  (FailsWith.mapM fun root _ => (Scope.ofNode_fails root).bind fun s => s.flatten_fails [] root).bind
    fun _ => .ok _

theorem definitions_fails (text : String) : FailsWith IsCertain (definitions text) := by
  refine (FailsWith.mapM fun s _ => ?_).bind fun _ => .ok _
  refine FailsWith.mapError ((nodes_fails s.body).bind resolve_fails) fun e he => ?_
  split
  · exact he.withSection _
  · exact he

end Idl

/-- No text of any dialect has an ambiguous line. -/
theorem parse_fails (text : String) (o : Options) : FailsWith IsCertain (parse text o) := by
  unfold parse
  refine .ite ?_ (Idl.definitions_fails text)
  exact (parseLines_fails _ _).bind fun definitions => .ite (.ok _) (resolveReferences_fails definitions)

/-! ## Ambiguity -/

open Line.Ros1 (productions derivations IsLine length_derivations_le derivations_ne_nil_iff isGap_head_trim)

/-- **The grammar of ROS 1 is unambiguous.** No line is derived by two productions, so that no text is
parsed to an ambiguous line, and the trimmed lines that have a derivation are those of the grammar. -/
theorem ros1_unambiguous :
    (∀ line, (productions.countP fun p => (Reader.whole? p line).isSome) ≤ 1) ∧
      (∀ text o line, (parse text o).mapError Error.innermost ≠ .error (.ambiguousLine line)) ∧
      ∀ line, derivations (Text.trim line) ≠ [] ↔ IsLine (Text.trim line) := by
  refine ⟨fun line => ?_, fun text o line => ?_, fun line => derivations_ne_nil_iff (isGap_head_trim line)⟩
  · rw [← List.length_filterMap_eq_countP]
    exact length_derivations_le line
  · have hfails := parse_fails text o
    cases hparse : parse text o with
    | ok definitions => exact nofun
    | error e => exact fun h => hfails e hparse line (Except.error.inj h)

/-- A comment can look like an assignment. -/
example : derivations "uint8[ 2\t]  code # = 1".toList =
    [⟨.numeric, "uint8".toList, some (.exactly 2), "code".toList, none⟩] := by
  decide +kernel

end RosSchema
