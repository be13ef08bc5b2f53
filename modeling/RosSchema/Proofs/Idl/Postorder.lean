import RosSchema.Proofs.Idl.Fields
import RosSchema.Proofs.Idl.Flattening

/-!
# Definitions in post-order

The definitions of a document are those of some of its nodes, in post-order: structs, and modules that
hold constants and otherwise at most typedefs. `resolve_postorder` says which node each definition comes
from, what it is named and what its fields are.
-/

namespace RosSchema.Idl

namespace Node

def name : Node → String
  | .module name _ | .struct name _ => name
  | .typedef m | .field m | .constant m => m.name

def children : Node → List Node
  | .module _ children | .struct _ children => children
  | .typedef _ | .field _ | .constant _ => []

/-- A node that declares a field of the node around it. -/
def isMember : Node → Bool
  | .field _ | .constant _ => true
  | .module _ _ | .struct _ _ | .typedef _ => false

/-- A node with a definition of its own. -/
inductive Emits : Node → Prop where
  | struct (name : String) (children : List Node) : Emits (.struct name children)
  | module {name : String} {children : List Node} (inhabited : ∃ child ∈ children, child.isTypedef = false)
      (constants : ∀ child ∈ children, child.isTypedef = true ∨ child.isConstant = true) :
      Emits (.module name children)

theorem emits_module_iff {name : String} {children : List Node} :
    Emits (.module name children) ↔ isConstantGroup children = true := by
  have hall : (∀ child ∈ children, child.isTypedef = true ∨ child.isConstant = true) ↔
      (children.filter (!·.isTypedef)).all (·.isConstant) = true := by
    simp [or_comm]
  have hsome : (∃ child ∈ children, child.isTypedef = false) ↔
      (!(children.filter (!·.isTypedef)).isEmpty) = true := by
    simp
  rw [isConstantGroup, Bool.and_eq_true, ← hall, ← hsome]
  constructor
  · rintro ⟨⟩
    exact ⟨‹_›, ‹_›⟩
  · exact fun h => .module h.1 h.2

instance : DecidablePred Emits
  | .struct name children => isTrue (.struct name children)
  | .module _ _ => decidable_of_iff _ emits_module_iff.symm
  | .typedef _ | .field _ | .constant _ => isFalse fun h => by cases h

end Node

structure Place where
  path : List String
  node : Node

mutual

/-- All nodes of a tree that stands inside a path, children before their parents. -/
def Node.postorder (path : List String) : Node → List Place
  | .module name children =>
    postorderIn (path ++ [name]) children ++ [⟨path ++ [name], .module name children⟩]
  | .struct name children =>
    postorderIn (path ++ [name]) children ++ [⟨path ++ [name], .struct name children⟩]
  | .typedef m => [⟨path ++ [m.name], .typedef m⟩]
  | .field m => [⟨path ++ [m.name], .field m⟩]
  | .constant m => [⟨path ++ [m.name], .constant m⟩]

def postorderIn (path : List String) : List Node → List Place
  | [] => []
  | node :: rest => node.postorder path ++ postorderIn path rest

end

def emitting (places : List Place) : List Place := places.filter fun p => decide p.node.Emits

theorem emitting_append (ps qs : List Place) : emitting (ps ++ qs) = emitting ps ++ emitting qs :=
  List.filter_append ..

theorem emitting_singleton (p : Place) : emitting [p] = if p.node.Emits then [p] else [] := by
  simp [emitting, List.filter_cons]

mutual

/-- The groups of a tree are its places with a definition of their own. -/
theorem Node.groups_eq_postorder (path : List String) : ∀ node : Node,
    node.groups path = (emitting (node.postorder path)).map fun p => (p.path, p.node.children)
  | .struct name children => by
    rw [Node.groups, Node.postorder, emitting_append, List.map_append, emitting_singleton,
      if_pos (.struct name children), groupsIn_eq_postorderIn (path ++ [name]) children]
    rfl
  | .module name children => by
    rw [Node.groups, Node.postorder, emitting_append, List.map_append, emitting_singleton,
      groupsIn_eq_postorderIn (path ++ [name]) children]
    simp only [Node.emits_module_iff]
    split <;> rfl
  | .typedef _ | .field _ | .constant _ => rfl

theorem groupsIn_eq_postorderIn (path : List String) : ∀ nodes : List Node,
    groupsIn path nodes = (emitting (postorderIn path nodes)).map fun p => (p.path, p.node.children)
  | [] => rfl
  | node :: rest => by
    rw [groupsIn, postorderIn, emitting_append, List.map_append, Node.groups_eq_postorder path node,
      groupsIn_eq_postorderIn path rest]

end

/-! ## Definitions of places -/

structure Node.Declares (node : Node) (f : Field) : Prop where
  name : f.name = node.name
  isConstant : f.isConstant = node.isConstant

/-- A definition that is named by a path and has one field for each member of a node. -/
structure Place.Defines (p : Place) (d : Definition) : Prop where
  name : d.name = some ("/".intercalate p.path)
  fields : List.Forall₂ Node.Declares (p.node.children.filter (·.isMember)) d.fields

theorem inline_name {typedefs : Typedefs} {declared m : Member} (h : typedefs.inline declared = .ok m) :
    m.name = declared.name := by
  unfold Typedefs.inline at h
  split at h
  · cases h
    rfl
  · split at h
    · cases h
    · cases h
      rfl

namespace Scope

variable {s : Scope} {parent : String} {m : Member} {f : Field}

theorem declares_of_constantField (h : s.constantField parent m = .ok f) : (Node.constant m).Declares f := by
  obtain ⟨shape, hinline, bound, -, -, l, -, v, -, value, -, rfl⟩ := constantField_eq_ok.1 h
  exact ⟨inline_name hinline, rfl⟩

theorem declares_of_variableField (h : s.variableField parent m = .ok f) : (Node.field m).Declares f := by
  obtain ⟨shape, hinline, bound, -, length, -, most, -, default, -, rfl⟩ := variableField_eq_ok.1 h
  cases harray : shape.isArray <;> exact ⟨inline_name hinline, rfl⟩

/-- Each member of a node has its field. -/
theorem forall₂_members {R : Node → Field → Prop} {children : List Node} {fields : List Field}
    (hR : ∀ node ∈ children, ∀ f, s.field? parent node = some (.ok f) → R node f)
    (h : List.Forall₂ (fun result f => result = .ok f) (children.filterMap (s.field? parent)) fields) :
    List.Forall₂ R (children.filter (·.isMember)) fields := by
  induction children generalizing fields with
  | nil =>
    cases h
    exact .nil
  | cons child children ih =>
    have hrest := fun node hnode => hR node (List.mem_cons_of_mem child hnode)
    cases child with
    | module | struct | typedef => exact ih hrest h
    | field m =>
      obtain ⟨f, rest, hf, hfields, rfl⟩ := List.forall₂_cons_left_iff.1 h
      exact .cons (hR _ List.mem_cons_self f (congrArg some hf)) (ih hrest hfields)
    | constant m =>
      obtain ⟨f, rest, hf, hfields, rfl⟩ := List.forall₂_cons_left_iff.1 h
      exact .cons (hR _ List.mem_cons_self f (congrArg some hf)) (ih hrest hfields)

theorem declares_of_field? {node : Node} (h : s.field? parent node = some (.ok f)) : node.Declares f := by
  cases node with
  | field m => exact declares_of_variableField (Option.some.inj h)
  | constant m => exact declares_of_constantField (Option.some.inj h)
  | module | struct | typedef => cases h

/-- The definitions of a tree are those of its groups, one from each place that has one. -/
theorem forall₂_of_flatten {node : Node} {defs : List Definition} (h : s.flatten [] node = .ok defs) :
    List.Forall₂ (fun p d => s.groupDefinition (p.path, p.node.children) = .ok d)
      (emitting (node.postorder [])) defs := by
  rwa [flatten_eq, Node.groups_eq_postorder, Steps.mapM_eq_ok_iff, List.forall₂_map_left_iff] at h

/-- The definitions of a tree are those of its places. -/
theorem defines_of_flatten {node : Node} {defs : List Definition} (h : s.flatten [] node = .ok defs) :
    List.Forall₂ Place.Defines (emitting (node.postorder [])) defs := by
  refine (forall₂_of_flatten h).imp fun p d hd => ?_
  obtain ⟨hname, hfields⟩ := groupDefinition_eq_ok.1 hd
  exact ⟨hname, forall₂_members (fun _ _ _ => declares_of_field?) hfields⟩

end Scope

/-- **Flattening.** The definitions of a list of nodes come from its structs and its modules of constants,
one from each, root by root and children before parents. Each is named by the path of its node and has
one field for each member of the node. -/
theorem resolve_postorder {roots : List Node} {defs : List Definition} (h : resolve roots = .ok defs) :
    List.Forall₂ Place.Defines (emitting (roots.flatMap (Node.postorder []))) defs := by
  obtain ⟨parts, hparts, hflat⟩ := Steps.bind_eq_ok.1 h
  cases hflat
  have heach : List.Forall₂ (List.Forall₂ Place.Defines)
      (roots.map fun root => emitting (root.postorder [])) parts := by
    rw [List.forall₂_map_left_iff]
    refine (Steps.mapM_eq_ok_iff.1 hparts).imp fun root own hown => ?_
    obtain ⟨s, -, hflatten⟩ := Steps.bind_eq_ok.1 hown
    exact s.defines_of_flatten hflatten
  rw [emitting, List.filter_flatMap, List.flatMap_def]
  exact List.rel_flatten heach

/-- A module of constants beside its typedef, a module that also holds a struct, an empty module, and a
struct inside a struct. -/
def nestedModules : Node :=
  .module "m"
    [.module "k" [.typedef { type := "int8", name := "T" },
        .constant { type := "T", name := "A", value := some (.value (.int 1)) }],
      .module "mixed" [.constant { type := "int8", name := "B", value := some (.constant "A") },
        .struct "S" [.field { type := "T", name := "f" }, .struct "Inner" [.field { type := "bool", name := "g" }],
          .constant { type := "bool", name := "C", value := some (.value (.bool true)) }]],
      .module "empty" []]

def nestedDefinitions : List Definition :=
  [⟨some "m/k", [.constantOf "int8" "A" (.int 1) none]⟩,
    ⟨some "m/mixed/S/Inner", [.variableOf "bool" "g"]⟩,
    ⟨some "m/mixed/S", [.variableOf "int8" "f", .constantOf "bool" "C" (.bool true) none]⟩]

theorem resolve_postorder_nestedModules : resolve [nestedModules] = .ok nestedDefinitions ∧
    (emitting (nestedModules.postorder [])).map Place.path =
      [["m", "k"], ["m", "mixed", "S", "Inner"], ["m", "mixed", "S"]] ∧
    List.Forall₂ Place.Defines (emitting ([nestedModules].flatMap (Node.postorder []))) nestedDefinitions :=
  have hdefs : resolve [nestedModules] = .ok nestedDefinitions := by decide +kernel
  ⟨hdefs, by decide +kernel, resolve_postorder hdefs⟩

end RosSchema.Idl
