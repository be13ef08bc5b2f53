import RosSchema.Idl.Flatten
import RosSchema.Proofs.Steps

/-!
# The definitions of a tree

`groups` are the parts of a tree that become definitions, in their order: flattening a tree is one pass
over them. Each field of a definition is that of one constant or variable of its group.
-/

namespace RosSchema.Idl

mutual

/-- The paths and the children of the definitions under a node, in order. -/
def Node.groups (path : List String) : Node → List (List String × List Node)
  | .struct name children =>
    groupsIn (path ++ [name]) children ++ [(path ++ [name], children)]
  | .module name children =>
    groupsIn (path ++ [name]) children ++
      (if isConstantGroup children then [(path ++ [name], children)] else [])
  | .typedef _ | .field _ | .constant _ => []

def groupsIn (path : List String) : List Node → List (List String × List Node)
  | [] => []
  | node :: rest => node.groups path ++ groupsIn path rest

end

namespace Scope

def groupDefinition (s : Scope) (group : List String × List Node) : Except Error Definition :=
  s.definition group.1 group.2

mutual

/-- Flattening a node is one pass over its groups. -/
theorem flatten_eq (s : Scope) (path : List String) :
    ∀ node : Node, s.flatten path node = (node.groups path).mapM s.groupDefinition
  | .struct name children => by
    rw [flatten, Node.groups, List.mapM_append, flattenAll_eq s (path ++ [name]) children]
    simp [groupDefinition]
  | .module name children => by
    rw [flatten, Node.groups, List.mapM_append, flattenAll_eq s (path ++ [name]) children]
    split <;> simp [groupDefinition]
  | .typedef _ | .field _ | .constant _ => rfl

/-- Flattening some nodes is one pass over their groups. -/
theorem flattenAll_eq (s : Scope) (path : List String) :
    ∀ nodes : List Node, s.flattenAll path nodes = (groupsIn path nodes).mapM s.groupDefinition
  | [] => rfl
  | node :: rest => by
    rw [flattenAll, groupsIn, List.mapM_append, flatten_eq s path node, flattenAll_eq s path rest]

end

theorem groupDefinition_eq_ok {s : Scope} {group : List String × List Node} {d : Definition} :
    s.groupDefinition group = .ok d ↔ d.name = some (joinPath group.1) ∧
      List.Forall₂ (fun result f => result = .ok f)
        (group.2.filterMap (s.field? (joinPath group.1))) d.fields := by
  rw [groupDefinition, definition, Steps.bind_eq_ok]
  constructor
  · rintro ⟨fields, hfields, h⟩
    cases h
    exact ⟨rfl, Steps.mapM_eq_ok_iff.1 hfields⟩
  · rintro ⟨hname, hfields⟩
    exact ⟨d.fields, Steps.mapM_eq_ok_iff.2 hfields, by rw [← hname]; rfl⟩

end Scope

end RosSchema.Idl
