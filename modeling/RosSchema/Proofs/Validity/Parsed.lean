import RosSchema.Proofs.Validity.Documents
import RosSchema.Proofs.Validity.Lines

/-!
# Valid definitions

Every field of every text that is accepted is valid. On top of that, the text of a constant in a line
stands for its value, and the types of documents have no two colons.
-/

namespace RosSchema

/-- What a dialect guarantees of its fields, over and above that they are valid. -/
def Dialect.Guarantees : Dialect → Field → Prop
  | .ros1, f => Line.Ros1.Rereads f
  | .ros2, f => Line.Ros2.Rereads f
  | .idl, f => ¬ "::".toList <:+: f.type.toList

/-- **Model invariant.** Whatever the options, every field of a text that is parsed is valid and keeps what
its dialect guarantees. -/
theorem fields_valid {o : Options} {text : String} {defs : List Definition} (h : parse text o = .ok defs) :
    ∀ d ∈ defs, ∀ f ∈ d.fields, f.Valid ∧ o.dialect.Guarantees f := by
  cases ho : o.dialect with
  | ros1 => exact Line.Ros1.valid_of_parse ho h
  | ros2 => exact Line.Ros2.valid_of_parse ho h
  | idl =>
    intro d hd f hf
    have hlowered := (Idl.isLowered_of_parse (by rw [ho]; rfl) h d hd).field f hf
    exact ⟨hlowered.valid, hlowered.colons⟩

def readingsText : String :=
  "module m \x7b
    typedef sequence<string<5>, 3> Names;
    struct Reading \x7b
      const int8 LEAST = -5;
      Names names;
      @default(value=LEAST) double x;
    \x7d;
  \x7d;"

theorem fields_valid_of_readings : ∃ defs, parse readingsText (Options.ofDialect .idl) = .ok defs ∧
    defs = [⟨some "m/Reading", [
      .constantOf "int8" "LEAST" (.int (-5)) (some "-5"),
      { Field.variableOf "string" "names" with
        isArray := true, arrayBound := some 3, stringBound := some 5 },
      { Field.variableOf "float64" "x" with defaultValue := some (.float (.ofInt (-5))) }]⟩] ∧
    ∀ d ∈ defs, ∀ f ∈ d.fields, f.Valid ∧ Dialect.idl.Guarantees f := by
  have hparse : parse readingsText (Options.ofDialect .idl) = .ok [⟨some "m/Reading", [
      .constantOf "int8" "LEAST" (.int (-5)) (some "-5"),
      { Field.variableOf "string" "names" with
        isArray := true, arrayBound := some 3, stringBound := some 5 },
      { Field.variableOf "float64" "x" with defaultValue := some (.float (.ofInt (-5))) }]⟩] := by
    decide +kernel
  exact ⟨_, hparse, rfl, fields_valid hparse⟩

end RosSchema
