import Mathlib
import RosSchema.Proofs.Idl.Fields
import RosSchema.Proofs.Idl.Flattening

/-!
# Reordered constants

Two lists of nodes are reordered when they differ in where the constants stand among the children of
each module and struct. They hold the same typedefs and constants, and stand for the same definitions
with their fields in another order.
-/

namespace RosSchema.Idl

/-- Nodes whose constants stand in another order among their siblings. -/
inductive Reordered : List Node → List Node → Prop where
  | nil : Reordered [] []
  | cons (node : Node) {as bs} (rest : Reordered as bs) : Reordered (node :: as) (node :: bs)
  | module (name : String) {children children' as bs} (inner : Reordered children children')
      (rest : Reordered as bs) :
      Reordered (.module name children :: as) (.module name children' :: bs)
  | struct (name : String) {children children' as bs} (inner : Reordered children children')
      (rest : Reordered as bs) :
      Reordered (.struct name children :: as) (.struct name children' :: bs)
  | swap (m : Member) (node : Node) (rest : List Node) :
      Reordered (.constant m :: node :: rest) (node :: .constant m :: rest)
  | symm {as bs} (h : Reordered as bs) : Reordered bs as
  | trans {as bs cs} (h₁ : Reordered as bs) (h₂ : Reordered bs cs) : Reordered as cs

namespace Reordered

theorem refl (nodes : List Node) : Reordered nodes nodes := by
  induction nodes with
  | nil => exact .nil
  | cons node rest ih => exact .cons node ih

theorem constants_perm {as bs : List Node} (h : Reordered as bs) (path : List String) :
    (constantsIn path as).Perm (constantsIn path bs) := by
  induction h generalizing path with
  | nil => exact .refl _
  | cons node rest ih => exact (ih path).append_left _
  | module name inner rest ihinner ihrest => exact (ihinner _).append (ihrest path)
  | struct name inner rest ihinner ihrest => exact (ihinner _).append (ihrest path)
  | swap m node rest =>
    simp only [constantsIn, ← List.append_assoc]
    exact List.perm_append_comm.append_right _
  | symm h ih => exact (ih path).symm
  | trans h₁ h₂ ih₁ ih₂ => exact (ih₁ path).trans (ih₂ path)

theorem typedefs_eq {as bs : List Node} (h : Reordered as bs) : typedefsIn as = typedefsIn bs := by
  induction h with
  | nil => rfl
  | cons node rest ih => rw [typedefsIn, ih, typedefsIn]
  | module name inner rest ihinner ihrest =>
    rw [typedefsIn, typedefsIn, Node.typedefs, Node.typedefs, ihinner, ihrest]
  | struct name inner rest ihinner ihrest =>
    rw [typedefsIn, typedefsIn, Node.typedefs, Node.typedefs, ihinner, ihrest]
  | swap m node rest => simp [typedefsIn, Node.typedefs]
  | symm h ih => exact ih.symm
  | trans h₁ h₂ ih₁ ih₂ => exact ih₁.trans ih₂

theorem isConstantGroup_eq {as bs : List Node} (h : Reordered as bs) :
    isConstantGroup as = isConstantGroup bs := by
  have hall : ∀ p : Node → Bool, (∀ name children children', p (.module name children) =
      p (.module name children')) → (∀ name children children', p (.struct name children) =
      p (.struct name children')) → as.all p = bs.all p := by
    intro p hmodule hstruct
    induction h with
    | nil => rfl
    | cons node rest ih => rw [List.all_cons, List.all_cons, ih]
    | module name inner rest ihinner ihrest =>
      rw [List.all_cons, List.all_cons, ihrest, hmodule]
    | struct name inner rest ihinner ihrest =>
      rw [List.all_cons, List.all_cons, ihrest, hstruct]
    | swap m node rest => simp only [List.all_cons, Bool.and_left_comm]
    | symm h ih => exact ih.symm
    | trans h₁ h₂ ih₁ ih₂ => exact ih₁.trans ih₂
  have hgroup : ∀ nodes, isConstantGroup nodes =
      (!nodes.all (·.isTypedef) && nodes.all fun node => node.isTypedef || node.isConstant) := by
    intro nodes
    have hempty : (nodes.filter (!·.isTypedef)).isEmpty = nodes.all (·.isTypedef) := by
      rw [Bool.eq_iff_iff, List.isEmpty_iff, List.filter_eq_nil_iff, List.all_eq_true]
      simp
    have hconstants : (nodes.filter (!·.isTypedef)).all (·.isConstant) =
        nodes.all fun node => node.isTypedef || node.isConstant := by
      rw [List.all_filter]
      congr 1
      funext node
      cases node.isTypedef <;> rfl
    rw [isConstantGroup, hempty, hconstants]
  rw [hgroup, hgroup, hall _ (fun _ _ _ => rfl) fun _ _ _ => rfl,
    hall _ (fun _ _ _ => rfl) fun _ _ _ => rfl]

/-- Reordered nodes stand for definitions of the same paths with reordered children. -/
theorem groups_forall₂ {as bs : List Node} (h : Reordered as bs) (path : List String) :
    List.Forall₂ (fun g k => g.1 = k.1 ∧ Reordered g.2 k.2) (groupsIn path as) (groupsIn path bs) := by
  have hrefl : ∀ groups : List (List String × List Node),
      List.Forall₂ (fun g k => g.1 = k.1 ∧ Reordered g.2 k.2) groups groups :=
    fun groups => List.forall₂_same.2 fun g _ => ⟨rfl, refl g.2⟩
  induction h generalizing path with
  | nil => exact .nil
  | cons node rest ih => exact List.rel_append (hrefl _) (ih path)
  | module name inner rest ihinner ihrest =>
    refine List.rel_append (List.rel_append (ihinner _) ?_) (ihrest path)
    rw [inner.isConstantGroup_eq]
    split
    · exact List.forall₂_cons.2 ⟨⟨rfl, inner⟩, .nil⟩
    · exact .nil
  | struct name inner rest ihinner ihrest =>
    refine List.rel_append (List.rel_append (ihinner _) ?_) (ihrest path)
    exact List.forall₂_cons.2 ⟨⟨rfl, inner⟩, .nil⟩
  | swap m node rest =>
    simp only [groupsIn, Node.groups, List.nil_append]
    exact hrefl _
  | symm h ih => exact (ih path).flip.imp fun g k hgk => ⟨hgk.1.symm, hgk.2.symm⟩
  | trans h₁ h₂ ih₁ ih₂ =>
    exact Steps.forall₂_trans (fun _ _ _ hgk hkl => ⟨hgk.1.trans hkl.1, hgk.2.trans hkl.2⟩)
      (ih₁ path) (ih₂ path)

theorem fields_perm {as bs : List Node} (h : Reordered as bs) (s : Scope) (parent : String) :
    (as.filterMap (s.field? parent)).Perm (bs.filterMap (s.field? parent)) := by
  induction h with
  | nil => exact .refl _
  | cons node rest ih =>
    cases hf : s.field? parent node with
    | none => rwa [List.filterMap_cons_none hf, List.filterMap_cons_none hf]
    | some f =>
      rw [List.filterMap_cons_some hf, List.filterMap_cons_some hf]
      exact ih.cons f
  | module name inner rest ihinner ihrest => exact ihrest
  | struct name inner rest ihinner ihrest => exact ihrest
  | swap m node rest => exact (List.Perm.swap _ _ _).filterMap _
  | symm h ih => exact ih.symm
  | trans h₁ h₂ ih₁ ih₂ => exact ih₁.trans ih₂

end Reordered

/-- Definitions with one name and the same fields, in any order. -/
def SameFields (d e : Definition) : Prop := d.name = e.name ∧ d.fields.Perm e.fields

theorem SameFields.refl (d : Definition) : SameFields d d := ⟨rfl, .refl _⟩

/-- Scopes with the same typedefs in which every name stands for the same value. -/
structure Scope.Agrees (s t : Scope) : Prop where
  typedefs : s.typedefs = t.typedefs
  constants : ∀ name, s.constants.lookup name = t.constants.lookup name

namespace Scope.Agrees

variable {s t : Scope}

theorem lookup?_eq (h : s.Agrees t) (name : String) :
    lookup? s.constants name = lookup? t.constants name := by
  rw [lookup?, lookup?, h.constants, h.constants]

theorem field?_eq (h : s.Agrees t) (parent : String) : s.field? parent = t.field? parent := by
  funext node
  cases node with
  | field m =>
    rw [Scope.field?, Scope.field?, Scope.variableField_congr h.typedefs h.lookup?_eq]
  | constant m =>
    rw [Scope.field?, Scope.field?,
      Scope.constantField_congr h.typedefs (fun _ _ name _ => h.lookup?_eq name)]
  | module name children => rfl
  | struct name children => rfl
  | typedef m => rfl

/-- In agreeing scopes a group and its reordering become the same fields. -/
theorem groupDefinition (h : s.Agrees t) {g k : List String × List Node}
    (hgk : g.1 = k.1 ∧ Reordered g.2 k.2) {d : Definition} (hd : s.groupDefinition g = .ok d) :
    ∃ e, t.groupDefinition k = .ok e ∧ SameFields d e := by
  obtain ⟨hname, hfields⟩ := Scope.groupDefinition_eq_ok.1 hd
  have hperm := hgk.2.fields_perm s (joinPath g.1)
  obtain ⟨fields, hforall, hsame⟩ := List.perm_comp_forall₂ hperm.symm hfields
  refine ⟨⟨d.name, fields⟩, Scope.groupDefinition_eq_ok.2 ⟨?_, ?_⟩, rfl, hsame.symm⟩
  · rw [hname, hgk.1]
  · rw [← h.field?_eq, ← hgk.1]
    exact hforall

/-- In agreeing scopes nodes and their reordering become the same fields. -/
theorem flattenAll (h : s.Agrees t) {as bs : List Node} (hre : Reordered as bs) (path : List String)
    {defs : List Definition} (hdefs : s.flattenAll path as = .ok defs) :
    ∃ others, t.flattenAll path bs = .ok others ∧ List.Forall₂ SameFields defs others := by
  rw [Scope.flattenAll_eq] at hdefs ⊢
  have hstep : ∀ (g k : List String × List Node) (d : Definition),
      g.1 = k.1 ∧ Reordered g.2 k.2 → s.groupDefinition g = .ok d →
      ∃ e, t.groupDefinition k = .ok e ∧ SameFields d e := fun _ _ _ hgk hd => h.groupDefinition hgk hd
  exact Steps.exists_mapM_of_forall₂ hstep (hre.groups_forall₂ path) hdefs

end Scope.Agrees

end RosSchema.Idl
