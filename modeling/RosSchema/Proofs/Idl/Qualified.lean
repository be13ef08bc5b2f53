import RosSchema.Proofs.Idl.Identifiers
import RosSchema.Proofs.Idl.OneValue

/-!
# Qualified references

A scope records the constants of a tree by their plain names, and a reference with the name of a module
stands for its last part. So all slots that are written as such a reference hold the value that was
recorded last under the plain name, whichever module declares it. It is the value of the module that
is named when no other constant has the name, or when its constant is declared last and no constant refers
to the name, as the walk over the constants then comes to it last.
-/

namespace RosSchema.Idl

/-! ## Constants of modules -/

mutual

def Node.modules : Node → List (String × List Node)
  | .module name children => (name, children) :: modulesIn children
  | .struct _ children => modulesIn children
  | .typedef _ | .field _ | .constant _ => []

def modulesIn : List Node → List (String × List Node)
  | [] => []
  | node :: rest => node.modules ++ modulesIn rest

end

mutual

/-- A constant of a module is one of the tree around it. -/
theorem exists_mem_constants {name : String} {children : List Node} {m : Member}
    (hm : .constant m ∈ children) : ∀ (node : Node) (path : List String), (name, children) ∈ node.modules →
      ∃ parent, ⟨m, parent⟩ ∈ node.constants path
  | .module other inner, path, h => by
    rcases List.mem_cons.1 h with heq | h
    · cases heq
      exact ⟨_, mem_constantsIn hm List.mem_cons_self⟩
    · exact exists_mem_constantsIn hm inner _ h
  | .struct _ inner, path, h => exists_mem_constantsIn hm inner _ h
  | .typedef _, path, h => by cases h
  | .field _, path, h => by cases h
  | .constant _, path, h => by cases h

theorem exists_mem_constantsIn {name : String} {children : List Node} {m : Member}
    (hm : .constant m ∈ children) : ∀ (nodes : List Node) (path : List String),
      (name, children) ∈ modulesIn nodes → ∃ parent, ⟨m, parent⟩ ∈ constantsIn path nodes
  | [], path, h => by cases h
  | node :: rest, path, h => by
    rcases List.mem_append.1 h with h | h
    · obtain ⟨parent, hin⟩ := exists_mem_constants hm node path h
      exact ⟨parent, List.mem_append_left _ hin⟩
    · obtain ⟨parent, hin⟩ := exists_mem_constantsIn hm rest path h
      exact ⟨parent, List.mem_append_right _ hin⟩

end

/-! ## The order of a walk -/

namespace Constants

variable {c : Constants}

/-- Constants that no other one uses were settled after all constants before them. -/
def Ordered (c : Constants) (done : Settled) : Prop :=
  ∀ later p earlier, done.places = later ++ p :: earlier → (∀ q, ¬ c.Uses q p) → ∀ q < p, q ∈ earlier

def Task.Turn (c : Constants) (done : Settled) : Task → Prop
  | .settle place => (∀ q, ¬ c.Uses q place) → ∀ q < place, q ∈ done.places
  | .visit d references => ∃ (p : Nat) (shape : Member), c.declared[p]? = some d ∧
      c.typedefs.inline d.member = .ok shape ∧ references ⊆ shape.references

/-- A walk keeps the order: a constant that is settled out of turn is one that another uses. -/
theorem Runs.ordered {underWay : List Nat} {task : Task} {done : Settled}
    {outcome : Except Error Settled} (h : Runs c underWay task done outcome) {result : Settled}
    (hok : outcome = .ok result) (hturn : task.Turn c done) (ho : c.Ordered done) :
    done.places ⊆ result.places ∧ c.Ordered result := by
  induction h generalizing result with
  | known old =>
    cases hok
    exact ⟨List.Subset.refl _, ho⟩
  | absent gone =>
    cases hok
    exact ⟨List.Subset.refl _, ho⟩
  | misshapen => cases hok
  | blocked => cases hok
  | undecodable => cases hok
  | @decoded underWay place done d shape mid f v new found inlined visit field value ih =>
    cases hok
    obtain ⟨hkeeps, hmid⟩ := ih rfl ⟨place, shape, found, inlined, List.Subset.refl _⟩ ho
    refine ⟨fun p hp => List.mem_cons_of_mem _ (hkeeps hp), ?_⟩
    intro later p earlier hplaces hunused q hq
    -- the split is at the constant that was settled now, or in what its references had settled
    cases later with
    | nil =>
      obtain ⟨rfl, rfl⟩ := List.cons.inj hplaces
      exact hkeeps (hturn hunused q hq)
    | cons first later => exact hmid later p earlier (List.cons.inj hplaces).2 hunused q hq
  | finished =>
    cases hok
    exact ⟨List.Subset.refl _, ho⟩
  | undeclared nowhere rest ih =>
    obtain ⟨p, shape, found, inlined, hsub⟩ := hturn
    exact ih hok ⟨p, shape, found, inlined, (List.cons_subset.1 hsub).2⟩ ho
  | circle => cases hok
  | failed => cases hok
  | @went underWay d name names done other mid r there free walk rest ihwalk ihrest =>
    obtain ⟨p, shape, found, inlined, hsub⟩ := hturn
    obtain ⟨hname, hnames⟩ := List.cons_subset.1 hsub
    have huse : c.Uses p other := ⟨d, shape, found, inlined, name, hname, there⟩
    -- what is settled here is used, so its turn asks for nothing
    obtain ⟨hkeeps, hmid⟩ := ihwalk rfl (fun hunused => absurd huse (hunused p)) ho
    obtain ⟨hrest, hresult⟩ := ihrest hok ⟨p, shape, found, inlined, hnames⟩ hmid
    exact ⟨List.Subset.trans hkeeps hrest, hresult⟩

/-- The values of a document are those of a state with a history that was built in order. -/
theorem exists_ordered_of_values {values : List (String × ConstantValue)} (h : c.values = .ok values) :
    ∃ done, c.Built done ∧ (∀ p < c.declared.length, p ∈ done.places) ∧ c.Ordered done ∧
      values = done.values := by
  obtain ⟨done, hdone, hvalues⟩ := Steps.bind_eq_ok.1 h
  cases hvalues
  -- the places are walked from the first, so a place is reached when all before it are settled
  have hfold : ∀ n ≤ c.declared.length, ∀ done, (List.range n).foldlM
      (fun done place => c.settle c.declared.length [] place done) {} = .ok done →
      c.Built done ∧ (∀ p < n, p ∈ done.places) ∧ c.Ordered done := by
    intro n
    induction n with
    | zero =>
      intro hn done hdone
      cases hdone
      exact ⟨.start, by simp, fun later p earlier hplaces => by simp at hplaces⟩
    | succ n ih =>
      intro hn done hdone
      rw [List.range_succ, List.foldlM_append] at hdone
      obtain ⟨mid, hmid, hlast⟩ := Steps.bind_eq_ok.1 hdone
      obtain ⟨last, hsettle, hend⟩ := Steps.foldlM_cons_eq_ok.1 hlast
      cases hend
      obtain ⟨hbuilt, hall, hordered⟩ := ih (Nat.le_of_succ_le hn) mid hmid
      have hrun := runs_of_start c n mid
      have hgrown := hrun.grown hsettle (ready_start n hbuilt)
      obtain ⟨-, hordered⟩ := hrun.ordered hsettle (fun _ => hall) hordered
      refine ⟨hgrown.built, fun p hp => ?_, hordered⟩
      by_cases hlt : p < n
      · exact hgrown.keeps (hall p hlt)
      · obtain rfl : p = n := by omega
        exact hgrown.met hn
  obtain ⟨hbuilt, hall, hordered⟩ := hfold _ (Nat.le_refl _) done hdone
  exact ⟨done, hbuilt, hall, hordered, rfl⟩

theorem Built.nodup {done : Settled} (h : c.Built done) : done.places.Nodup := by
  induction h with
  | start => exact List.nodup_nil
  | add before new found inlined prepared field value ih => exact List.nodup_cons.2 ⟨new, ih⟩

/-- The values in a state with a history stand in the order of their places, each decoded from those
before it. -/
theorem Built.split_at {done : Settled} (h : c.Built done) {later earlier : List Nat} {p : Nat}
    (hp : done.places = later ++ p :: earlier) :
    ∃ d newer older f v, c.declared[p]? = some d ∧
      done.values = newer ++ (d.member.name, ⟨v, f.valueText⟩) :: older ∧
      (∀ name ∈ newer.map Prod.fst, ∃ q ∈ later, ∃ e, c.declared[q]? = some e ∧ e.member.name = name) ∧
      Scope.constantField ⟨c.typedefs, older⟩ d.parent d.member = .ok f ∧ f.value = some v := by
  induction h generalizing later with
  | start => simp at hp
  | @add done place d shape f v before new found inlined prepared field value ih =>
    cases later with
    | nil =>
      obtain ⟨rfl, rfl⟩ := List.cons.inj hp
      exact ⟨d, [], done.values, f, v, found, rfl, by simp, field, value⟩
    | cons first later =>
      obtain ⟨rfl, hplaces⟩ := List.cons.inj hp
      obtain ⟨e, newer, older, g, w, he, hvalues, hnewer, hg, hw⟩ := ih hplaces
      refine ⟨e, (d.member.name, ⟨v, f.valueText⟩) :: newer, older, g, w, he, ?_, ?_, hg, hw⟩
      · rw [Settled.values_add, hvalues]
        rfl
      · intro name hname
        rcases List.mem_cons.1 hname with rfl | hname
        · exact ⟨place, List.mem_cons_self, d, found, rfl⟩
        · obtain ⟨q, hq, hd⟩ := hnewer name hname
          exact ⟨q, List.mem_cons_of_mem _ hq, hd⟩

end Constants

/-! ## What a scope keeps -/

/-- A constant is the last one that was recorded under its name, with the value that it was decoded to by
what had been recorded before. -/
def Scope.Keeps (s : Scope) (root : Node) (x : Declared) (v : Value) : Prop :=
  x ∈ root.constants [] ∧ ∃ newer older f, s.constants = newer ++ (x.member.name, ⟨v, f.valueText⟩) :: older ∧
    x.member.name ∉ newer.map Prod.fst ∧
    Scope.constantField ⟨s.typedefs, older⟩ x.parent x.member = .ok f ∧ f.value = some v

/-- A constant is recorded last under its name: it is the only one that has it, or the last one that is
declared, and no constant refers to the name. -/
def Scope.Prevails (s : Scope) (root : Node) (x : Declared) : Prop :=
  ((root.constants []).map (·.member.name)).count x.member.name = 1 ∨
    (∃ before after, root.constants [] = before ++ x :: after ∧
      ∀ d ∈ after, d.member.name ≠ x.member.name) ∧
    ∀ d ∈ root.constants [], ∀ shape, s.typedefs.inline d.member = .ok shape →
      ∀ reference ∈ shape.references, ¬ Names reference x.member.name

def Scope.Fills (s : Scope) (root : Node) (defs : List Definition) (reference : String) (v : Value) :
    Prop :=
  ∀ entry ∈ root.emitted, ∀ declared slots, entry.2.slots? = some (declared, slots) →
    ∀ m, s.typedefs.inline declared = .ok m → ∀ slot ∈ slots,
      slot.literal m = some (.constant reference) →
      ∃ f, s.field? entry.1 entry.2 = some (.ok f) ∧
        (∃ d ∈ defs, d.name = some entry.1 ∧ f ∈ d.fields) ∧ slot.Holds m f v

namespace Scope

variable {s : Scope} {root : Node} {x y : Declared} {u v : Value}

theorem Keeps.lookup (h : s.Keeps root x v) : ∃ text, s.constants.lookup x.member.name = some ⟨v, text⟩ := by
  obtain ⟨-, newer, older, f, hvalues, hnew, -, -⟩ := h
  refine ⟨f.valueText, List.lookup_eq_some_iff.2 ⟨newer, older, hvalues, fun entry hentry => ?_⟩⟩
  rw [bne_iff_ne]
  rintro heq
  exact hnew (List.mem_map.2 ⟨entry, hentry, heq.symm⟩)

/-- A name has one value that was recorded last. -/
theorem Keeps.value_eq (hx : s.Keeps root x u) (hy : s.Keeps root y v)
    (h : x.member.name = y.member.name) : u = v := by
  obtain ⟨text, hu⟩ := hx.lookup
  obtain ⟨text', hv⟩ := hy.lookup
  rw [h, hv] at hu
  cases hu
  rfl

/-- A constant is kept if no constant that was settled after it has its name. -/
theorem exists_keeps_of_places {done : Settled}
    (hbuilt : Constants.Built ⟨s.typedefs, root.constants []⟩ done)
    (hvalues : s.constants = done.values) {later earlier : List Nat} {p : Nat}
    (hp : done.places = later ++ p :: earlier) (hx : (root.constants [])[p]? = some x)
    (hlast : ∀ q ∈ later, ∀ d, (root.constants [])[q]? = some d → d.member.name ≠ x.member.name) :
    ∃ v, s.Keeps root x v := by
  obtain ⟨d, newer, older, f, v, hd, hsplit, hnewer, hfield, hv⟩ := hbuilt.split_at hp
  cases hd.symm.trans hx
  refine ⟨v, List.mem_of_getElem? hx, newer, older, f, hvalues.trans hsplit, fun hname => ?_, hfield, hv⟩
  obtain ⟨q, hq, e, he, hename⟩ := hnewer _ hname
  exact hlast q hq e he hename

/-- One of the constants of a name is kept. -/
theorem exists_keeps {done : Settled} (hbuilt : Constants.Built ⟨s.typedefs, root.constants []⟩ done)
    (hall : ∀ p < (root.constants []).length, p ∈ done.places) (hvalues : s.constants = done.values)
    (hy : y ∈ root.constants []) : ∃ x v, x.member.name = y.member.name ∧ s.Keeps root x v := by
  obtain ⟨p, hp⟩ := List.mem_iff_getElem?.1 hy
  let named (p : Nat) : Bool := (root.constants [])[p]?.any (·.member.name == y.member.name)
  have hfound : (done.places.find? named).isSome := by
    rw [List.find?_isSome]
    exact ⟨p, hall p (List.getElem?_eq_some_iff.1 hp).1, by simp [named, hp]⟩
  obtain ⟨q, hq⟩ := Option.isSome_iff_exists.1 hfound
  obtain ⟨hnamed, later, earlier, hplaces, hlater⟩ := List.find?_eq_some_iff_append.1 hq
  obtain ⟨x, hx, hname⟩ := (Option.any_eq_true ..).1 hnamed
  have hname : x.member.name = y.member.name := beq_iff_eq.1 hname
  obtain ⟨v, hv⟩ := exists_keeps_of_places hbuilt hvalues hplaces hx fun q hq d hd heq => by
    simpa [named, hd, heq, hname] using hlater q hq
  exact ⟨x, v, hname, hv⟩

theorem not_uses_of_references {p : Nat} (hx : (root.constants [])[p]? = some x)
    (h : ∀ d ∈ root.constants [], ∀ shape, s.typedefs.inline d.member = .ok shape →
      ∀ reference ∈ shape.references, ¬ Names reference x.member.name) (q : Nat) :
    ¬ Constants.Uses ⟨s.typedefs, root.constants []⟩ q p := by
  rintro ⟨d, shape, hd, hshape, reference, hreference, hplace⟩
  obtain ⟨e, he, hnames⟩ := Constants.exists_of_place? hplace
  cases he.symm.trans hx
  exact h d (List.mem_of_getElem? hd) shape hshape reference hreference hnames

/-- A constant that prevails is kept. -/
theorem Prevails.exists_keeps {done : Settled}
    (hbuilt : Constants.Built ⟨s.typedefs, root.constants []⟩ done)
    (hall : ∀ p < (root.constants []).length, p ∈ done.places)
    (hordered : Constants.Ordered ⟨s.typedefs, root.constants []⟩ done) (hvalues : s.constants = done.values)
    (hx : x ∈ root.constants []) (h : s.Prevails root x) : ∃ v, s.Keeps root x v := by
  have hsplit {p : Nat} (hp : (root.constants [])[p]? = some x) :=
    List.append_of_mem (hall p (List.getElem?_eq_some_iff.1 hp).1)
  have hnew {later earlier : List Nat} {p q : Nat} (hplaces : done.places = later ++ p :: earlier)
      (hq : q ∈ later) : q ≠ p ∧ q ∉ earlier := by
    have hnodup := hbuilt.nodup
    rw [hplaces, List.nodup_append] at hnodup
    have hdisjoint := hnodup.2.2 q hq
    exact ⟨hdisjoint p List.mem_cons_self, fun hmem => hdisjoint q (List.mem_cons_of_mem _ hmem) rfl⟩
  rcases h with hone | ⟨⟨before, after, hroot, hafter⟩, hreferences⟩
  · obtain ⟨p, hp⟩ := List.mem_iff_getElem?.1 hx
    obtain ⟨later, earlier, hplaces⟩ := hsplit hp
    refine exists_keeps_of_places hbuilt hvalues hplaces hp fun q hq d hd hname => (hnew hplaces hq).1 ?_
    refine index_unique (Nat.le_of_eq hone) ?_ ?_
    · rw [List.getElem?_map, hd, Option.map_some, hname]
    · rw [List.getElem?_map, hp, Option.map_some]
  · have hp : (root.constants [])[before.length]? = some x := by
      rw [hroot]
      simp
    obtain ⟨later, earlier, hplaces⟩ := hsplit hp
    have hfirst := hordered later _ earlier hplaces (not_uses_of_references hp hreferences)
    refine exists_keeps_of_places hbuilt hvalues hplaces hp fun q hq d hd => hafter d ?_
    -- all constants before this one were settled before it
    obtain ⟨hne, hearlier⟩ := hnew hplaces hq
    have hlt : before.length < q := by
      by_contra hle
      exact hearlier (hfirst q (by omega))
    rw [hroot, List.getElem?_append_right hlt.le, List.getElem?_cons, if_neg (by omega)] at hd
    exact List.mem_of_getElem? hd

end Scope

/-! ## Slots -/

/-- The slots with a reference hold what the reference stands for. -/
theorem fills_of_lookup? {roots : List Node} {defs : List Definition} (hdefs : resolve roots = .ok defs)
    {root : Node} (hroot : root ∈ roots) {s : Scope} (hs : Scope.ofNode root = .ok s) {reference : String}
    {c : ConstantValue} (hc : lookup? s.constants reference = some c) :
    s.Fills root defs reference c.value := by
  obtain ⟨s', hs', hfields⟩ := exists_field_of_emitted hdefs hroot
  cases hs.symm.trans hs'
  intro entry hentry declared slots hslots m hm slot hslot hl
  have hnode : ∃ r, s.field? entry.1 entry.2 = some r := by
    cases hn : entry.2 with
    | constant m => exact ⟨_, rfl⟩
    | field m => exact ⟨_, rfl⟩
    | _ =>
      rw [hn] at hslots
      cases hslots
  obtain ⟨r, hr⟩ := hnode
  obtain ⟨f, rfl, hin⟩ := hfields entry hentry r hr
  obtain ⟨c', hc', hholds⟩ := Scope.holds_of_field? hr hslots hm hslot hl
  cases hc.symm.trans hc'
  exact ⟨f, hr, hin, hholds⟩

/-- The fields of a document include those of every tree in it. -/
theorem exists_resolve_of_definitions {text : String} {defs : List Definition}
    (h : definitions text = .ok defs) {part : Section} (hpart : part ∈ sections text)
    {roots : List Node} (hroots : nodes part.body = .ok roots) :
    ∃ own, resolve roots = .ok own ∧ own ⊆ defs := by
  obtain ⟨all, hall, hflat⟩ := Steps.bind_eq_ok.1 h
  cases hflat
  obtain ⟨own, hown, hread⟩ := Steps.exists_of_mem_left (Steps.mapM_eq_ok_iff.1 hall) hpart
  obtain ⟨roots', hroots', hresolve⟩ := Steps.bind_eq_ok.1 (Steps.mapError_eq_ok.1 hread)
  cases hroots.symm.trans hroots'
  exact ⟨own, hresolve, fun d hd => List.mem_flatten.2 ⟨own, hown, hd⟩⟩

/-- **Qualified references.** In a document that is accepted, all slots that are written with the name of
a module and that of one of its constants hold the value that was recorded last under the name of the
constant, as do those that are written without the module. It is the value of the constant in that
module if this one prevails. -/
theorem qualified_references_hold {text : String} {defs : List Definition} (h : definitions text = .ok defs)
    {part : Section} (hpart : part ∈ sections text) {roots : List Node} (hroots : nodes part.body = .ok roots)
    {root : Node} (hroot : root ∈ roots) {module : String} {children : List Node}
    (hmodule : (module, children) ∈ root.modules) {own : Member} (hown : .constant own ∈ children) :
    ∃ s x v, Scope.ofNode root = .ok s ∧ x.member.name = own.name ∧ s.Keeps root x v ∧
      s.Fills root defs (qualified module own.name) v ∧ s.Fills root defs own.name v ∧
      ∀ parent, ⟨own, parent⟩ ∈ root.constants [] → s.Prevails root ⟨own, parent⟩ →
        s.Keeps root ⟨own, parent⟩ v := by
  obtain ⟨mine, hresolve, hmine⟩ := exists_resolve_of_definitions h hpart hroots
  obtain ⟨s, hs, -⟩ := exists_field_of_emitted hresolve hroot
  obtain ⟨done, hbuilt, hall, hordered, hvalues⟩ :=
    Constants.exists_ordered_of_values (Scope.ofNode_eq_ok.1 hs).2
  obtain ⟨parent, hparent⟩ := exists_mem_constants hown root [] hmodule
  obtain ⟨x, v, hname, hx⟩ := Scope.exists_keeps hbuilt hall hvalues hparent
  obtain ⟨text, hlookup⟩ := hx.lookup
  rw [hname] at hlookup
  have hplain := plainNames_of_nodes hroots root hroot []
  have hfills {reference : String} (hstands : lookup? s.constants reference = some ⟨v, text⟩) :
      s.Fills root defs reference v := by
    intro entry hentry declared slots hslots m hm slot hslot hl
    obtain ⟨f, hf, ⟨d, hd, hin⟩, hholds⟩ :=
      fills_of_lookup? hresolve hroot hs hstands entry hentry declared slots hslots m hm slot hslot hl
    exact ⟨f, hf, ⟨d, hmine hd, hin⟩, hholds⟩
  refine ⟨s, x, v, hs, hname, hx, hfills ?_, hfills ?_, ?_⟩
  · -- the qualified name is none that a constant can have
    refine lookup?_eq_some.2 (.inr ⟨lookup_eq_none_iff_not_mem.2 fun hmem => ?_, ?_⟩)
    · rw [hvalues] at hmem
      obtain ⟨d, hd, hqualified⟩ := Constants.mem_names.1 (hbuilt.keys _ hmem)
      have hcolon := hplain d hd
      rw [hqualified, qualified, String.toList_ofList] at hcolon
      exact hcolon (by simp)
    · rwa [lastPart_qualified module (hplain _ hparent)]
  · exact lookup?_eq_some.2 (.inl hlookup)
  · intro parent hparent hprevails
    obtain ⟨w, hw⟩ := hprevails.exists_keeps hbuilt hall hordered hvalues hparent
    rwa [hx.value_eq hw hname]

/-- Two modules declare one name, and an array has its length from the first of them. -/
def twoModulesText : String :=
  "module m \x7b module A \x7b const int32 C = 1; \x7d; module B \x7b const int32 C = 2; \x7d; " ++
    "struct S \x7b int8 grid[A::C]; \x7d; \x7d;"

def sharedConstant (n : Int) (text : String) : Member :=
  { type := "int32", name := "C", value := some (.value (.int n)), valueText := some text }

def gridMember : Member :=
  { type := "int8", name := "grid", isArray := true, arrayLength := some (.constant "A::C") }

def twoModules : Node :=
  .module "m"
    [.module "A" [.constant (sharedConstant 1 "1")], .module "B" [.constant (sharedConstant 2 "2")],
      .struct "S" [.field gridMember]]

def twoModulesDefinitions : List Definition :=
  [⟨some "m/A", [.constantOf "int32" "C" (.int 1) (some "1")]⟩,
    ⟨some "m/B", [.constantOf "int32" "C" (.int 2) (some "2")]⟩,
    ⟨some "m/S", [(Field.variableOf "int8" "grid").asArray (some 2) none]⟩]

theorem qualified_references_hold_of_twoModules :
    definitions twoModulesText = .ok twoModulesDefinitions ∧ nodes twoModulesText.toList = .ok [twoModules] ∧
    ∃ s x v, Scope.ofNode twoModules = .ok s ∧ x.member.name = "C" ∧ s.Keeps twoModules x v ∧
      s.Fills twoModules twoModulesDefinitions (qualified "A" "C") v ∧
      s.Fills twoModules twoModulesDefinitions "C" v ∧
      ∀ parent, ⟨sharedConstant 1 "1", parent⟩ ∈ twoModules.constants [] →
        s.Prevails twoModules ⟨sharedConstant 1 "1", parent⟩ →
        s.Keeps twoModules ⟨sharedConstant 1 "1", parent⟩ v := by
  have hdefs : definitions twoModulesText = .ok twoModulesDefinitions := by decide +kernel
  have hpart : (⟨none, twoModulesText.toList⟩ : Section) ∈ sections twoModulesText := by decide +kernel
  have hroots : nodes twoModulesText.toList = .ok [twoModules] := by decide +kernel
  have hmodule : ("A", [Node.constant (sharedConstant 1 "1")]) ∈ twoModules.modules := by decide +kernel
  exact ⟨hdefs, hroots,
    qualified_references_hold hdefs hpart hroots List.mem_cons_self hmodule List.mem_cons_self⟩

/-- The only module of the name declares the constant once, but the length is the value of the constant
in the other module. -/
theorem qualified_reference_to_other_module :
    definitions twoModulesText = .ok twoModulesDefinitions ∧ nodes twoModulesText.toList = .ok [twoModules] ∧
    twoModules.modules.filter (·.1 = "A") = [("A", [.constant (sharedConstant 1 "1")])] ∧
    gridMember.arrayLength = some (.constant (qualified "A" "C")) ∧
    (∃ d ∈ twoModulesDefinitions, d.name = some "m/A" ∧ ∃ f ∈ d.fields, f.name = "C" ∧
      f.value = some (.int 1)) ∧
    ∃ d ∈ twoModulesDefinitions, d.name = some "m/S" ∧ ∃ f ∈ d.fields, f.name = "grid" ∧
      f.arrayLength = some 2 := by
  decide +kernel

end RosSchema.Idl
