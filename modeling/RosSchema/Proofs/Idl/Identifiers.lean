import RosSchema.Proofs.Idl.Names
import RosSchema.Proofs.Idl.Written

/-!
# Names in documents

The grammar takes the name of every constant from an identifier. So no constant of a document has a name
with a colon, and a scoped name never is the name of one.
-/

namespace RosSchema.Idl

/-- No constant in a tree has a name with a colon. -/
def Node.PlainNames (node : Node) : Prop :=
  ∀ path, ∀ d ∈ node.constants path, ':' ∉ d.member.name.toList

/-- The trees of a document have plain names. -/
theorem plainNames_of_nodes {document : List Char} {roots : List Node} (h : nodes document = .ok roots) :
    ∀ root ∈ roots, root.PlainNames := by
  intro root hroot path d hd hcolon
  have hname := ((written_of_nodes h root hroot).constants path d hd).name
  exact absurd (List.all_eq_true.1 hname ':' hcolon) (by decide)

/-! ## Scoped names -/

def qualified (module name : String) : String := String.ofList (module.toList ++ ':' :: ':' :: name.toList)

theorem afterColons?_append {last : List Char} (h : ':' ∉ last) (cs : List Char) :
    afterColons? (cs ++ ':' :: ':' :: last) = some last := by
  have hlast : afterColons? last = none := afterColons?_eq_none fun hin => h (hin.subset List.mem_cons_self)
  induction cs with
  | nil =>
    have hsecond : afterColons? (':' :: last) = none := by
      rw [afterColons?, hlast]
      cases last with
      | nil => rfl
      | cons c last =>
        have hc : ':' ≠ c := fun heq => h (heq ▸ List.mem_cons_self)
        simp [List.isPrefixOf?, hc]
    rw [List.nil_append, afterColons?, hsecond]
    rfl
  | cons c cs ih => rw [List.cons_append, afterColons?, ih]

/-- The last part of a qualified name is the name without its module. -/
theorem lastPart_qualified (module : String) {name : String} (h : ':' ∉ name.toList) :
    lastPart (qualified module name) = name := by
  rw [lastPart, qualified, String.toList_ofList, afterColons?_append h]
  exact String.ofList_toList

end RosSchema.Idl
