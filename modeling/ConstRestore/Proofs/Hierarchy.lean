/-
  The class hierarchy as a relation.

  * A search lists exactly what can be reached (`mem_preorder_iff`), cyclic
    hierarchies included; the recursion that looks for something on the way
    finds what the first class in the list has (`seek?_eq`);
  * `isAssignable_iff` reads assignability off the relation.  It is transitive
    through every class but the root class, to which everything is assignable
    whatever the registry says of it;
  * a common superclass accounts for both classes, and climbs: going on from a
    class to the common superclass with another one leaves fewer classes above
    (`classRank_commonSuperclass_lt`).
-/
import ConstRestore.Registry.Search
import Mathlib

namespace ConstRestore

namespace Registry

open Relation

variable {r : Registry} {d : Direction} {a b c x y : String}

/-! ## Searches -/

theorem preorderFrom_nil (r : Registry) (d : Direction) (visited : List String) :
    r.preorderFrom d [] visited = [] := by
  rw [preorderFrom]

theorem preorderFrom_cons (r : Registry) (d : Direction) (x : String)
    (pending visited : List String) : r.preorderFrom d (x :: pending) visited =
      if x ∈ visited then r.preorderFrom d pending visited
      else x :: r.preorderFrom d (((r.info? x).map d.next).getD [] ++ pending) (x :: visited) := by
  rw [preorderFrom]
  split_ifs
  · rfl
  · split
    · next hc => simp [hc]
    · next c hc => simp [hc]

/-- A registered class leads to another one in one step. -/
def Leads (r : Registry) (next : ClassInfo → List String) (x y : String) : Prop :=
  ∃ c, r.info? x = some c ∧ y ∈ next c

theorem reachable_of_mem_preorderFrom {pending visited : List String}
    (h : y ∈ r.preorderFrom d pending visited) :
    ∃ x ∈ pending, ReflTransGen (r.Leads d.next) x y := by
  fun_induction preorderFrom r d pending visited with
  | case1 => cases h
  | case2 x pending visited hx ih =>
    obtain ⟨z, hz, hzy⟩ := ih h
    exact ⟨z, List.mem_cons_of_mem _ hz, hzy⟩
  | case3 x pending visited hx hc ih =>
    rcases List.mem_cons.1 h with rfl | h
    · exact ⟨y, List.mem_cons_self, .refl⟩
    · obtain ⟨z, hz, hzy⟩ := ih h
      exact ⟨z, List.mem_cons_of_mem _ hz, hzy⟩
  | case4 x pending visited hx c hc ih =>
    rcases List.mem_cons.1 h with rfl | h
    · exact ⟨y, List.mem_cons_self, .refl⟩
    · obtain ⟨z, hz, hzy⟩ := ih h
      rcases List.mem_append.1 hz with hz | hz
      · exact ⟨x, List.mem_cons_self, .head ⟨c, hc, hz⟩ hzy⟩
      · exact ⟨z, List.mem_cons_of_mem _ hz, hzy⟩

/-- A search leaves nothing open: it lists what is pending, and the successors
    of all that it lists or has visited, provided those of visited classes are
    visited or pending. -/
theorem preorderFrom_closed {pending visited : List String}
    (hvisited : ∀ x ∈ visited, ∀ y, r.Leads d.next x y → y ∈ visited ∨ y ∈ pending) :
    (∀ x ∈ pending, x ∈ visited ∨ x ∈ r.preorderFrom d pending visited) ∧
      ∀ x, x ∈ visited ∨ x ∈ r.preorderFrom d pending visited → ∀ y, r.Leads d.next x y →
        y ∈ visited ∨ y ∈ r.preorderFrom d pending visited := by
  fun_induction preorderFrom r d pending visited with
  | case1 visited => simpa using hvisited
  | case2 x pending visited hx ih =>
    obtain ⟨hpending, hclosed⟩ := ih fun z hz y hzy => by
      rcases hvisited z hz y hzy with hy | hy
      · exact .inl hy
      · rcases List.mem_cons.1 hy with rfl | hy
        · exact .inl hx
        · exact .inr hy
    exact ⟨List.forall_mem_cons.2 ⟨.inl hx, hpending⟩, hclosed⟩
  | case3 x pending visited hx hc ih =>
    obtain ⟨hpending, hclosed⟩ := ih fun z hz y hzy => by
      rcases List.mem_cons.1 hz with rfl | hz
      · obtain ⟨c, hc', -⟩ := hzy
        cases hc.symm.trans hc'
      · rcases hvisited z hz y hzy with hy | hy
        · exact .inl (List.mem_cons_of_mem _ hy)
        · rcases List.mem_cons.1 hy with rfl | hy
          · exact .inl List.mem_cons_self
          · exact .inr hy
    refine ⟨List.forall_mem_cons.2 ⟨.inr List.mem_cons_self, fun z hz => ?_⟩, ?_⟩
    · simpa [or_left_comm, or_assoc] using hpending z hz
    · simpa [or_left_comm, or_assoc] using hclosed
  | case4 x pending visited hx c hc ih =>
    obtain ⟨hpending, hclosed⟩ := ih fun z hz y hzy => by
      rcases List.mem_cons.1 hz with rfl | hz
      · obtain ⟨c', hc', hy⟩ := hzy
        obtain rfl := Option.some.inj (hc.symm.trans hc')
        exact .inr (List.mem_append_left _ hy)
      · rcases hvisited z hz y hzy with hy | hy
        · exact .inl (List.mem_cons_of_mem _ hy)
        · rcases List.mem_cons.1 hy with rfl | hy
          · exact .inl List.mem_cons_self
          · exact .inr (List.mem_append_right _ hy)
    refine ⟨List.forall_mem_cons.2 ⟨.inr List.mem_cons_self, fun z hz => ?_⟩, ?_⟩
    · simpa [or_left_comm, or_assoc] using hpending z (List.mem_append_right _ hz)
    · simpa [or_left_comm, or_assoc] using hclosed

/-- A search lists exactly the classes that can be reached. -/
theorem mem_preorder_iff : y ∈ r.preorder d x ↔ ReflTransGen (r.Leads d.next) x y := by
  constructor
  · intro h
    obtain ⟨z, hz, hzy⟩ := reachable_of_mem_preorderFrom h
    rwa [List.mem_singleton.1 hz] at hzy
  · intro h
    obtain ⟨hstart, hclosed⟩ := @preorderFrom_closed r d [x] [] (by simp)
    simp only [List.not_mem_nil, false_or] at hstart hclosed
    induction h with
    | refl => exact hstart x List.mem_cons_self
    | tail _ hstep ih => exact hclosed _ ih _ hstep

/-! ## Looking for something on the way -/

theorem preorderFrom_append (r : Registry) (d : Direction) (pending rest visited : List String) :
    r.preorderFrom d (pending ++ rest) visited = r.preorderFrom d pending visited ++
      r.preorderFrom d rest ((r.preorderFrom d pending visited).reverse ++ visited) := by
  fun_induction preorderFrom r d pending visited with
  | case1 visited => rfl
  | case2 x pending visited hx ih => rw [List.cons_append, preorderFrom_cons, if_pos hx, ih]
  | case3 x pending visited hx hc ih =>
    rw [List.cons_append, preorderFrom_cons, if_neg hx, hc]
    simp [ih]
  | case4 x pending visited hx c hc ih =>
    rw [List.cons_append, preorderFrom_cons, if_neg hx, hc]
    simpa using ih

/-- The recursion finds what the first class in preorder has.  If none has
    anything, it has visited them all. -/
theorem seek_spec {α : Type} (r : Registry) (d : Direction) (look : String → Option α)
    (pending visited : List String) :
    (r.seek d look pending visited).1.1 = (r.preorderFrom d pending visited).findSome? look ∧
      ((r.seek d look pending visited).1.1 = none → (r.seek d look pending visited).1.2 =
        (r.preorderFrom d pending visited).reverse ++ visited) := by
  fun_induction seek r d look pending visited with
  | case1 visited => simp [preorderFrom_nil]
  | case2 x pending visited hx ih => simpa [preorderFrom_cons, hx] using ih
  | case3 x pending visited hx hcons a ha => simp [preorderFrom_cons, hx, ha]
  | case4 x pending visited hx hcons hlook hc rest ih =>
    simpa [preorderFrom_cons, hx, hlook, hc, rest] using ih
  | case5 x pending visited hx hcons hlook c hc a visited' h hseek ih =>
    rw [hseek] at ih
    simp [preorderFrom_cons, preorderFrom_append, hx, hlook, hc, ← ih.1]
  | case6 x pending visited hx hcons hlook c hc visited' h hseek rest ihabove ihrest =>
    rw [hseek] at ihabove
    have hvisited := ihabove.2 rfl
    simp only at hvisited
    simp only [preorderFrom_cons, if_neg hx, hc, Option.map_some, Option.getD_some,
      preorderFrom_append, ← hvisited, List.findSome?_cons, hlook, List.findSome?_append,
      ← ihabove.1, Option.none_or, rest]
    exact ⟨ihrest.1, fun hnone => by simp [ihrest.2 hnone, hvisited]⟩

theorem seek?_eq {α : Type} (r : Registry) (d : Direction) (look : String → Option α)
    (x : String) : r.seek? d look x = (r.preorder d x).findSome? look :=
  (r.seek_spec d look [x] []).1

theorem findConstant?_eq (r : Registry) (owner name : String) : r.findConstant? owner name =
    (r.fieldOwners owner).findSome? (r.constant? · name) :=
  r.seek?_eq ..

theorem exists_constant?_of_findConstant? {owner name : String} {c : Constant}
    (h : r.findConstant? owner name = some c) : ∃ x, r.constant? x name = some c := by
  rw [findConstant?_eq] at h
  obtain ⟨x, -, hx⟩ := List.exists_of_findSome?_eq_some h
  exact ⟨x, hx⟩

/-- Field resolution starts in the class that a reference names. -/
theorem findConstant?_of_constant? {owner name : String} {c : Constant}
    (h : r.constant? owner name = some c) : r.findConstant? owner name = some c := by
  rw [findConstant?_eq, fieldOwners, preorder, preorderFrom_cons, if_neg List.not_mem_nil]
  exact List.findSome?_cons_of_isSome (by simp [h]) |>.trans h

/-! ## Assignability -/

/-- Values of class `x` are values of class `y` as the registry says. -/
def Extends (r : Registry) : String → String → Prop :=
  ReflTransGen (r.Leads ClassInfo.supertypes)

theorem isAssignable_iff : r.isAssignable b a ↔ b = objectClass ∨ r.Extends a b := by
  simp [isAssignable, mem_preorder_iff, Direction.next, Extends]

theorem isAssignable_self (r : Registry) (a : String) : r.isAssignable a a :=
  isAssignable_iff.2 (.inr .refl)

theorem isAssignable_object (r : Registry) (a : String) : r.isAssignable objectClass a :=
  isAssignable_iff.2 (.inl rfl)

theorem isAssignable_trans (hb : b ≠ objectClass) (h : r.isAssignable b a)
    (h' : r.isAssignable c b) : r.isAssignable c a := by
  rcases isAssignable_iff.1 h' with hc | hbc
  · exact isAssignable_iff.2 (.inl hc)
  · have hab := (isAssignable_iff.1 h).resolve_left hb
    exact isAssignable_iff.2 (.inr (hab.trans hbc))

/-! ## Common superclasses -/

theorem commonSuperclass_of_isAssignable (h : r.isAssignable a b) : r.commonSuperclass a b = a := by
  rw [commonSuperclass, if_pos h]

/-- The nearest common superclass is one of the two classes, the root class, or
    a superclass of the first one that accounts for the second. -/
theorem commonSuperclass_cases (r : Registry) (a b : String) :
    r.commonSuperclass a b = a ∧ r.isAssignable a b ∨
    r.commonSuperclass a b = b ∧ r.isAssignable b a ∨
    r.commonSuperclass a b = objectClass ∨
    r.commonSuperclass a b ∈ r.superclassChain a ∧
      r.isAssignable (r.commonSuperclass a b) b := by
  unfold commonSuperclass
  split_ifs with hab hba hinterface
  · exact .inl ⟨rfl, hab⟩
  · exact .inr (.inl ⟨rfl, hba⟩)
  · exact .inr (.inr (.inl rfl))
  · cases h : (r.superclassChain a).find? (r.isAssignable · b) with
    | none => exact .inr (.inr (.inl rfl))
    | some p => exact .inr (.inr (.inr ⟨List.mem_of_find?_eq_some h, by simpa using List.find?_some h⟩))

theorem mem_superclassChain_iff :
    b ∈ r.superclassChain a ↔ ReflTransGen (r.Leads (·.superclass.toList)) a b :=
  mem_preorder_iff

theorem extends_of_mem_superclassChain (h : b ∈ r.superclassChain a) : r.Extends a b := by
  refine ReflTransGen.mono ?_ _ _ (mem_superclassChain_iff.1 h)
  rintro x y ⟨c, hc, hy⟩
  exact ⟨c, hc, List.mem_append_left _ hy⟩

theorem isAssignable_commonSuperclass_left (r : Registry) (a b : String) :
    r.isAssignable (r.commonSuperclass a b) a := by
  rcases r.commonSuperclass_cases a b with ⟨h, -⟩ | ⟨h, hba⟩ | h | ⟨h, -⟩
  · rw [h]
    exact r.isAssignable_self a
  · rwa [h]
  · rw [h]
    exact r.isAssignable_object a
  · exact isAssignable_iff.2 (.inr (extends_of_mem_superclassChain h))

theorem isAssignable_commonSuperclass_right (r : Registry) (a b : String) :
    r.isAssignable (r.commonSuperclass a b) b := by
  rcases r.commonSuperclass_cases a b with ⟨h, hab⟩ | ⟨h, -⟩ | h | ⟨-, h⟩
  · rwa [h]
  · rw [h]
    exact r.isAssignable_self b
  · rw [h]
    exact r.isAssignable_object b
  · exact h

theorem commonSuperclass_object (r : Registry) (a : String) :
    r.commonSuperclass objectClass a = objectClass :=
  commonSuperclass_of_isAssignable (r.isAssignable_object a)

/-- What a class accounts for, its common superclass with another one does. -/
theorem isAssignable_commonSuperclass (h : r.isAssignable a c) (b : String) :
    r.isAssignable (r.commonSuperclass a b) c := by
  rcases eq_or_ne a objectClass with rfl | ha
  · rwa [commonSuperclass_object]
  · exact isAssignable_trans ha h (r.isAssignable_commonSuperclass_left a b)

/-! ## Ranks -/

/-- How far a class can still climb: everything accounts for less than the root
    class, which has no other class above it. -/
def classRank (r : Registry) (a : String) : Nat :=
  if a = objectClass then 1 else (r.preorder .supertypes a).toFinset.card + 1

theorem classRank_pos (r : Registry) (a : String) : 0 < r.classRank a := by
  unfold classRank
  split_ifs
  · exact Nat.one_pos
  · exact Nat.succ_pos _

theorem one_lt_classRank (ha : a ≠ objectClass) : 1 < r.classRank a := by
  have hmem : a ∈ (r.preorder .supertypes a).toFinset :=
    List.mem_toFinset.2 (mem_preorder_iff.2 .refl)
  have hpos := Finset.card_pos.2 ⟨a, hmem⟩
  rw [classRank, if_neg ha]
  omega

theorem classRank_object (r : Registry) : r.classRank objectClass = 1 := if_pos rfl

/-- A common superclass that is another class has a lower rank: it extends the
    class, and the class does not extend it. -/
theorem classRank_commonSuperclass_lt (h : r.commonSuperclass a b ≠ a) :
    r.classRank (r.commonSuperclass a b) < r.classRank a := by
  have ha : a ≠ objectClass := by
    rintro rfl
    exact h (r.commonSuperclass_object b)
  generalize hs : r.commonSuperclass a b = s at h
  have hsa := hs ▸ r.isAssignable_commonSuperclass_left a b
  have hsb := hs ▸ r.isAssignable_commonSuperclass_right a b
  rcases eq_or_ne s objectClass with rfl | hobject
  · rw [classRank_object]
    exact one_lt_classRank ha
  have has : r.Extends a s := (isAssignable_iff.1 hsa).resolve_left hobject
  have hnot : ¬r.Extends s a := by
    intro hsa
    refine h (hs.symm.trans (commonSuperclass_of_isAssignable ?_))
    exact isAssignable_trans hobject hsb (isAssignable_iff.2 (.inr hsa))
  rw [classRank, classRank, if_neg hobject, if_neg ha]
  refine Nat.succ_lt_succ (Finset.card_lt_card (Finset.ssubset_iff_subset_ne.2 ⟨?_, ?_⟩))
  · intro x hx
    rw [List.mem_toFinset, mem_preorder_iff] at hx ⊢
    exact has.trans hx
  · intro heq
    have hmem : a ∈ (r.preorder .supertypes s).toFinset :=
      heq ▸ List.mem_toFinset.2 (mem_preorder_iff.2 .refl)
    exact hnot (mem_preorder_iff.1 (List.mem_toFinset.1 hmem))

end Registry

end ConstRestore
