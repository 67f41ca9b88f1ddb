/-
  Least common superclasses.

  In a hierarchy of classes and interfaces (`Layered`) whose interfaces have no
  superclass but the root class (`PlainInterfaces`), every class that accounts
  for another one, the root class apart, is on its chain of superclasses
  (`mem_superclassChain`).  So the first class on the chain of one of two
  classes that accounts for the other one is below all that do
  (`isAssignable_of_common`), and it is the same from both sides
  (`commonSuperclass_comm`).

  In any hierarchy the first class on the chain of one of two classes that
  accounts for the other one is below those that are on the chains of both
  (`isAssignable_of_superclasses`).

  * `join_leastUpperBound` says it of the join of types, arrays included;
  * `join_order_matters` has the two hierarchies in which more goes wrong: an
    interface below a class, and a class that is called like an array.
-/
import ConstRestore.Proofs.Join

namespace ConstRestore

namespace Registry

open Relation

variable {r : Registry} {a b c p : String}

/-! ## Hierarchies -/

/-- A hierarchy of classes and interfaces: no class is above itself, superclasses are classes,
    what is listed as an interface is one, and nothing is above the root class. -/
structure Layered (r : Registry) : Prop where
  acyclic : ∀ a, ¬TransGen (r.Leads ClassInfo.supertypes) a a
  superclass : ∀ name c, r.info? name = some c → ∀ s ∈ c.superclass, ¬r.isInterface s
  interface : ∀ name c, r.info? name = some c → ∀ i ∈ c.interfaces, r.isInterface i
  root : ∀ name c, r.info? name = some c → name = objectClass → c.supertypes = []

/-- Interfaces have no superclass but the root class. -/
def PlainInterfaces (r : Registry) : Prop :=
  ∀ name c, r.info? name = some c → c.isInterface → ∀ s ∈ c.superclass, s = objectClass

instance (t : ClassRegistry) : Decidable t.registry.PlainInterfaces :=
  inferInstanceAs (Decidable (∀ name c, t.registry.info? name = some c → c.isInterface →
    ∀ s ∈ c.superclass, s = objectClass))

/-- There are no cycles where supertypes have a higher rank. -/
theorem acyclic_of_rank (rank : String → Nat)
    (h : ∀ name c, r.info? name = some c → ∀ s ∈ c.supertypes, rank name < rank s) (a : String) :
    ¬TransGen (r.Leads ClassInfo.supertypes) a a := by
  have hlt {x y : String} (hxy : TransGen (r.Leads ClassInfo.supertypes) x y) : rank x < rank y := by
    induction hxy with
    | single hstep =>
      obtain ⟨c, hc, hmem⟩ := hstep
      exact h _ c hc _ hmem
    | tail _ hstep ih =>
      obtain ⟨c, hc, hmem⟩ := hstep
      exact ih.trans (h _ c hc _ hmem)
  exact fun hcycle => lt_irrefl _ (hlt hcycle)

theorem Layered.eq_of_extends_object (h : r.Layered) (hb : r.Extends objectClass b) :
    b = objectClass := by
  rcases hb.cases_head with heq | ⟨x, ⟨c, hc, hx⟩, -⟩
  · exact heq.symm
  · simp [h.root _ c hc rfl] at hx

/-- Classes that account for each other are one. -/
theorem Layered.isAssignable_antisymm (h : r.Layered) (hab : r.isAssignable a b)
    (hba : r.isAssignable b a) : a = b := by
  rcases isAssignable_iff.1 hab with rfl | hab
  · rcases isAssignable_iff.1 hba with hb | hba
    · exact hb.symm
    · exact (h.eq_of_extends_object hba).symm
  rcases isAssignable_iff.1 hba with rfl | hba
  · exact h.eq_of_extends_object hab
  rcases reflTransGen_iff_eq_or_transGen.1 hab with heq | hab
  · exact heq
  · exact absurd (hab.trans_left hba) (h.acyclic b)

/-! ## Chains of superclasses -/

/-- A class that accounts for another one is a superclass of it: from an interface no class but
    the root class is reached. -/
theorem Layered.mem_superclassChain (h : r.Layered) (hr : r.PlainInterfaces)
    (hp : ¬r.isInterface p) (hobject : p ≠ objectClass) (hpb : r.isAssignable p b) :
    p ∈ r.superclassChain b := by
  have hextends := (isAssignable_iff.1 hpb).resolve_left hobject
  refine mem_superclassChain_iff.2 ?_
  clear hpb
  induction hextends with
  | refl => exact .refl
  | @tail q p hbq hqp ih =>
    obtain ⟨c, hc, hmem⟩ := hqp
    have hsuper : c.superclass = some p := by
      rcases List.mem_append.1 hmem with hsuper | hlisted
      · simpa using hsuper
      · exact absurd (h.interface q c hc p hlisted) hp
    have hq : ¬r.isInterface q := by
      intro hq
      rw [isInterface, hc] at hq
      exact hobject (hr q c hc hq p hsuper)
    have hqobject : q ≠ objectClass := by
      rintro rfl
      simp [h.root _ c hc rfl] at hmem
    exact (ih hq hqobject).tail ⟨c, hc, by simp [hsuper]⟩

theorem Layered.not_isInterface_of_mem_superclassChain (h : r.Layered) (ha : ¬r.isInterface a)
    (hp : p ∈ r.superclassChain a) : ¬r.isInterface p := by
  rcases (mem_superclassChain_iff.1 hp).cases_tail with rfl | ⟨q, -, c, hc, hmem⟩
  · exact ha
  · exact h.superclass q c hc p (Option.mem_toList.1 hmem)

/-- On a chain the classes further up are above the others. -/
theorem pairwise_superclassChain (r : Registry) (a : String) :
    (r.superclassChain a).Pairwise r.Extends := by
  suffices h : ∀ (s : Option String) (visited : List String),
      (r.preorderFrom .superclasses s.toList visited).Pairwise r.Extends from h (some a) []
  intro s visited
  generalize hpending : s.toList = pending
  fun_induction preorderFrom r .superclasses pending visited generalizing s with
  | case1 => exact .nil
  | case2 x pending visited hx ih =>
    obtain ⟨rfl, rfl⟩ : s = some x ∧ pending = [] := by cases s <;> simp_all
    exact ih none rfl
  | case3 x pending visited hx hc ih =>
    obtain ⟨rfl, rfl⟩ : s = some x ∧ pending = [] := by cases s <;> simp_all
    rw [preorderFrom]
    exact List.pairwise_singleton ..
  | case4 x pending visited hx c hc ih =>
    obtain ⟨rfl, rfl⟩ : s = some x ∧ pending = [] := by cases s <;> simp_all
    rw [List.append_nil] at ih ⊢
    refine List.pairwise_cons.2 ⟨fun y hy => ?_, ih c.superclass rfl⟩
    obtain ⟨z, hz, hzy⟩ := reachable_of_mem_preorderFrom hy
    have hxz : r.Leads (·.superclass.toList) x z := ⟨c, hc, hz⟩
    exact extends_of_mem_superclassChain (mem_superclassChain_iff.2 (.head hxz hzy))

/-! ## The least common superclass -/

/-- The common superclass of two classes is below every superclass of the one that accounts for the
    other one. -/
theorem isAssignable_of_mem_superclassChain (ha : ¬r.isInterface a) (hb : ¬r.isInterface b)
    (hmem : c ∈ r.superclassChain a) (hcb : r.isAssignable c b) :
    r.isAssignable c (r.commonSuperclass a b) := by
  unfold commonSuperclass
  split_ifs with hab hba hinterface
  · exact isAssignable_iff.2 (.inr (extends_of_mem_superclassChain hmem))
  · exact hcb
  · simp [ha, hb] at hinterface
  · cases hfind : (r.superclassChain a).find? (r.isAssignable · b) with
    | none => exact absurd hcb (List.find?_eq_none.1 hfind c hmem)
    | some p =>
      obtain ⟨-, before, after, heq, hbefore⟩ := List.find?_eq_some_iff_append.1 hfind
      have hsorted := r.pairwise_superclassChain a
      rw [heq] at hmem hsorted
      -- `c` accounts for `b`, so that it is not before the first class that does
      rcases List.mem_append.1 hmem with hmem | hmem
      · exact absurd hcb (by simpa using hbefore c hmem)
      rcases List.mem_cons.1 hmem with rfl | hmem
      · exact r.isAssignable_self c
      · have hsorted := (List.pairwise_append.1 hsorted).2.1
        exact isAssignable_iff.2 (.inr (List.rel_of_pairwise_cons hsorted hmem))

/-- The common superclass of two classes is below every superclass of both. -/
theorem isAssignable_of_superclasses (ha : ¬r.isInterface a) (hb : ¬r.isInterface b)
    (hca : c ∈ r.superclassChain a) (hcb : c ∈ r.superclassChain b) :
    r.isAssignable c (r.commonSuperclass a b) :=
  isAssignable_of_mem_superclassChain ha hb hca
    (isAssignable_iff.2 (.inr (extends_of_mem_superclassChain hcb)))

/-- Where interfaces have no superclass but the root class, it is below every class that accounts
    for both. -/
theorem Layered.isAssignable_of_common (h : r.Layered) (hr : r.PlainInterfaces)
    (ha : ¬r.isInterface a) (hb : ¬r.isInterface b) (hc : ¬r.isInterface c)
    (hca : r.isAssignable c a) (hcb : r.isAssignable c b) :
    r.isAssignable c (r.commonSuperclass a b) := by
  by_cases hobject : c = objectClass
  · rw [hobject]
    exact r.isAssignable_object _
  · exact isAssignable_of_mem_superclassChain ha hb (h.mem_superclassChain hr hc hobject hca) hcb

theorem Layered.not_isInterface_commonSuperclass (h : r.Layered) (ha : ¬r.isInterface a)
    (hb : ¬r.isInterface b) :
    r.commonSuperclass a b = objectClass ∨ ¬r.isInterface (r.commonSuperclass a b) := by
  rcases r.commonSuperclass_cases a b with ⟨heq, -⟩ | ⟨heq, -⟩ | heq | ⟨hmem, -⟩
  · exact .inr (by rwa [heq])
  · exact .inr (by rwa [heq])
  · exact .inl heq
  · exact .inr (h.not_isInterface_of_mem_superclassChain ha hmem)

theorem Layered.isAssignable_commonSuperclass_swap (h : r.Layered) (hr : r.PlainInterfaces)
    (ha : ¬r.isInterface a) (hb : ¬r.isInterface b) :
    r.isAssignable (r.commonSuperclass a b) (r.commonSuperclass b a) := by
  rcases h.not_isInterface_commonSuperclass ha hb with heq | hclass
  · rw [heq]
    exact r.isAssignable_object _
  · exact h.isAssignable_of_common hr hb ha hclass (r.isAssignable_commonSuperclass_right a b)
      (r.isAssignable_commonSuperclass_left a b)

/-- The common superclass does not depend on the order. -/
theorem Layered.commonSuperclass_comm (h : r.Layered) (hr : r.PlainInterfaces) (a b : String) :
    r.commonSuperclass a b = r.commonSuperclass b a := by
  by_cases hinterface : r.isInterface a ∨ r.isInterface b
  · unfold commonSuperclass
    split_ifs with hab hba
    · exact h.isAssignable_antisymm hab hba
    all_goals first | rfl | simp_all
  · obtain ⟨ha, hb⟩ := not_or.1 hinterface
    exact h.isAssignable_antisymm (h.isAssignable_commonSuperclass_swap hr ha hb)
      (h.isAssignable_commonSuperclass_swap hr hb ha)

end Registry

namespace ValueType

variable {r : Registry}

/-! ## Joins -/

theorem joinReferences_comm (h : r.Layered) (hr : r.PlainInterfaces) (a b : List Char) :
    joinReferences r a b = joinReferences r b a := by
  induction a using element_induction generalizing b with
  | step a ih =>
  rcases joinReferences_cases r a b with ⟨s, t, x, y, rfl, rfl, hx, hy⟩ | ⟨harray, hab⟩ | ⟨ha, hb⟩
  · rw [joinReferences_arrays hx hy, joinReferences_arrays hy hx, ih s x rfl hx]
  · rcases joinReferences_cases r b a with ⟨t, s, y, x, rfl, rfl, hy, hx⟩ | ⟨-, hba⟩ | ⟨hb, ha⟩
    · rw [joinReferences_arrays hx hy, joinReferences_arrays hy hx, ih s x rfl hx]
    · rw [hab, hba]
    · exact absurd harray (not_or.2 ⟨ha, hb⟩)
  · rw [joinReferences_classes ha hb, joinReferences_classes hb ha, h.commonSuperclass_comm hr]

theorem join_comm (h : r.Layered) (hr : r.PlainInterfaces) (s t : ValueType) :
    join r s t = join r t s := by
  cases s with
  | ref a =>
    cases t with
    | ref b =>
      rcases eq_or_ne a b with rfl | hne
      · rfl
      · rw [join_ref hne, join_ref hne.symm, joinReferences_comm h hr]
    | _ => rfl
  | _ => cases t <;> rfl

theorem join_classes {a b : String} (ha : ¬IsArray a.toList) (hb : ¬IsArray b.toList) :
    join r (.ref a) (.ref b) = .ref (r.commonSuperclass a b) := by
  rcases eq_or_ne a b with rfl | hne
  · rw [join_self, Registry.commonSuperclass_of_isAssignable (r.isAssignable_self a)]
  · rw [join_ref hne, joinReferences_classes ha hb, String.ofList_toList, String.ofList_toList,
      String.ofList_toList]

/-- **Types join to least upper bounds.**  In a hierarchy of classes and interfaces, a join
    absorbs both types, arrays included, if no class is called like an array.  If interfaces have
    no superclass but the root class, a join does not depend on the order.  Two names join to one
    that accounts for both, and every superclass of both accounts for it if neither is an
    interface; so does every class that accounts for both, if interfaces have no superclass but
    the root class. -/
theorem join_leastUpperBound (h : r.Layered) :
    (r.PlainInterfaces → ∀ s t, join r s t = join r t s) ∧
    (r.NoArrays →
      ∀ s t, join r (join r s t) s = join r s t ∧ join r (join r s t) t = join r s t) ∧
    ∀ a b, ¬IsArray a.toList → ¬IsArray b.toList → ∃ p, join r (.ref a) (.ref b) = .ref p ∧
      r.isAssignable p a ∧ r.isAssignable p b ∧ (¬r.isInterface a → ¬r.isInterface b →
        (∀ c ∈ r.superclassChain a, c ∈ r.superclassChain b → r.isAssignable c p) ∧
        (r.PlainInterfaces → ∀ c, ¬r.isInterface c →
          r.isAssignable c a → r.isAssignable c b → r.isAssignable c p)) := by
  refine ⟨join_comm h, fun harrays s t => ⟨?_, ?_⟩, fun a b ha hb => ?_⟩
  · exact absorbs_iff.1 ((Absorbs.self s).join harrays t)
  · exact absorbs_iff.1 (absorbs_join harrays s t)
  · exact ⟨_, join_classes ha hb, r.isAssignable_commonSuperclass_left a b,
      r.isAssignable_commonSuperclass_right a b, fun ha hb =>
      ⟨fun _ => Registry.isAssignable_of_superclasses ha hb,
        fun hr _ => h.isAssignable_of_common hr ha hb⟩⟩

end ValueType

namespace ValueType

open Registry

section

attribute [local simp] commonSuperclass superclassChain isInterface isAssignable preorder
  preorderFrom_cons preorderFrom_nil Direction.next objectClass ClassInfo.supertypes

/-- Animals that are pets. -/
abbrev pets : Registry :=
  ((((ClassRegistry.empty.addInfo ⟨objectClass, none, [], false, none⟩).addInfo
    ⟨"p/Animal", some objectClass, [], false, none⟩).addInfo
    ⟨"p/Pet", some objectClass, [], true, none⟩).addInfo
    ⟨"p/Dog", some "p/Animal", ["p/Pet"], false, none⟩).addInfo
    ⟨"p/Cat", some "p/Animal", ["p/Pet"], false, none⟩

theorem join_leastUpperBound_pets : pets.Layered ∧ pets.PlainInterfaces ∧ pets.NoArrays ∧
    join pets (.ref "[Lp/Dog;") (.ref "[Lp/Cat;") = join pets (.ref "[Lp/Cat;") (.ref "[Lp/Dog;") ∧
    (∀ t, join pets (join pets (.ref "[Lp/Dog;") t) t = join pets (.ref "[Lp/Dog;") t) ∧
    ∃ p, join pets (.ref "p/Dog") (.ref "p/Cat") = .ref p ∧ p = "p/Animal" ∧
      pets.isAssignable p "p/Dog" ∧ pets.isAssignable p "p/Cat" ∧
      (∀ c ∈ pets.superclassChain "p/Dog", c ∈ pets.superclassChain "p/Cat" →
        pets.isAssignable c p) ∧
      ∀ c, ¬pets.isInterface c → pets.isAssignable c "p/Dog" → pets.isAssignable c "p/Cat" →
        pets.isAssignable c p := by
  have hlayered : pets.Layered := by
    refine ⟨acyclic_of_rank ["p/Dog", "p/Cat", "p/Animal", "p/Pet", objectClass].idxOf ?_, ?_, ?_, ?_⟩
    all_goals decide
  have hplain : pets.PlainInterfaces := by decide
  have harrays : pets.NoArrays := by decide
  obtain ⟨hcomm, habsorbs, hclasses⟩ := join_leastUpperBound hlayered
  obtain ⟨p, hp, hdog, hcat, hbelow⟩ := hclasses "p/Dog" "p/Cat" (by decide) (by decide)
  obtain ⟨hsuperclasses, hleast⟩ := hbelow (by decide) (by decide)
  have hanimal : join pets (.ref "p/Dog") (.ref "p/Cat") = .ref "p/Animal" := by
    rw [join_classes (by decide) (by decide)]
    simp [pets]
  exact ⟨hlayered, hplain, harrays, hcomm hplain _ _, fun t => (habsorbs harrays _ t).2, p, hp,
    ValueType.ref.inj (hp.symm.trans hanimal), hdog, hcat, hsuperclasses, hleast hplain⟩

/-- An interface below a class. -/
abbrev interfaceBelowClass : Registry :=
  ((((ClassRegistry.empty.addInfo ⟨objectClass, none, [], false, none⟩).addInfo
    ⟨"p/P", some objectClass, [], false, none⟩).addInfo
    ⟨"p/I", some "p/P", [], true, none⟩).addInfo
    ⟨"p/A", some "p/P", [], false, none⟩).addInfo
    ⟨"p/B", some objectClass, ["p/I"], false, none⟩

/-- A class that is called like an array. -/
abbrev classLikeArray : Registry :=
  (((ClassRegistry.empty.addInfo ⟨objectClass, none, [], false, none⟩).addInfo
    ⟨"[Q", some objectClass, [], false, none⟩).addInfo
    ⟨"p/A", some "[Q", [], false, none⟩).addInfo
    ⟨"p/B", some "[Q", [], false, none⟩

/-- The two hierarchies that are left out.  Below a class that interfaces are below as well, the
    order of a join matters, and a class that accounts for one of two classes through an interface
    need not account for their join; a join that is called like an array absorbs no class. -/
theorem join_order_matters :
    interfaceBelowClass.Layered ∧ interfaceBelowClass.NoArrays ∧
    join interfaceBelowClass (.ref "p/A") (.ref "p/B") = .ref "p/P" ∧
    join interfaceBelowClass (.ref "p/B") (.ref "p/A") = .ref objectClass ∧
    interfaceBelowClass.isAssignable "p/P" "p/A" ∧ interfaceBelowClass.isAssignable "p/P" "p/B" ∧
    ¬interfaceBelowClass.isAssignable "p/P" objectClass ∧
    classLikeArray.Layered ∧ classLikeArray.PlainInterfaces ∧
    join classLikeArray (join classLikeArray (.ref "p/A") (.ref "p/B")) (.ref "p/B") ≠
      join classLikeArray (.ref "p/A") (.ref "p/B") := by
  have hinterface : interfaceBelowClass.Layered := by
    refine ⟨acyclic_of_rank ["p/A", "p/B", "p/I", "p/P", objectClass].idxOf ?_, ?_, ?_, ?_⟩
    all_goals decide
  have harray : classLikeArray.Layered := by
    refine ⟨acyclic_of_rank ["p/A", "p/B", "[Q", objectClass].idxOf ?_, ?_, ?_, ?_⟩
    all_goals decide
  refine ⟨hinterface, by decide, ?_, ?_, ?_, ?_, ?_, harray, by decide, ?_⟩
  · rw [join_classes (by decide) (by decide)]
    simp [interfaceBelowClass]
  · rw [join_classes (by decide) (by decide)]
    simp [interfaceBelowClass]
  · simp [interfaceBelowClass]
  · simp [interfaceBelowClass]
  · simp [interfaceBelowClass]
  · have hjoin : join classLikeArray (.ref "p/A") (.ref "p/B") = .ref "[Q" := by
      rw [join_classes (by decide) (by decide)]
      simp [classLikeArray]
    have hagain : joinReferences classLikeArray "[Q".toList "p/B".toList = objectClass.toList := by
      rcases joinReferences_cases classLikeArray "[Q".toList "p/B".toList with
        ⟨_, t, _, _, -, h, -⟩ | ⟨-, h⟩ | ⟨h, -⟩
      · have hhead : "p/B".toList.head? = some '[' := congrArg List.head? h
        exact absurd hhead (by decide)
      · exact h
      · exact absurd rfl h
    rw [hjoin, join_ref (by decide), hagain, String.ofList_toList]
    decide

end

end ValueType

end ConstRestore
