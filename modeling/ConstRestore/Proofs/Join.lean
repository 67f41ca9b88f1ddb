/-
  Joins of types.

  A join depends on the order of the types that meet: an interface has no
  common superclass with a class but the root class.  What holds in every
  order, provided that the hierarchy has no classes called like arrays:

  * a join absorbs what went into it, and goes on doing so through further
    joins (`absorbs_join`, `Absorbs.join`);
  * a join that is another type has a lower rank (`rank_join_lt`), so that a
    type never comes back.
-/
import ConstRestore.Dataflow.ValueType
import ConstRestore.Registry.Tables
import ConstRestore.Proofs.Hierarchy

namespace ConstRestore

/-- Named like an array. -/
def IsArray (name : List Char) : Prop := name.head? = some '['

/-- No class has a supertype that is called like an array. -/
def Registry.NoArrays (r : Registry) : Prop :=
  ∀ name c, r.info? name = some c → ∀ s ∈ c.supertypes, ¬IsArray s.toList

instance (name : List Char) : Decidable (IsArray name) :=
  inferInstanceAs (Decidable (name.head? = some '['))

instance (t : ClassRegistry) : Decidable t.registry.NoArrays :=
  inferInstanceAs (Decidable (∀ name c, t.registry.info? name = some c →
    ∀ s ∈ c.supertypes, ¬IsArray s.toList))

namespace ValueType

variable {r : Registry} {s t a b x y z : List Char}

/-! ## Arrays -/

/-- The array whose elements are references. -/
def arrayOf : List Char → List Char
  | '[' :: e => '[' :: '[' :: e
  | name => '[' :: 'L' :: name ++ [';']

theorem arrayOf_of_class (hz : ¬IsArray z) : arrayOf z = '[' :: ('L' :: z ++ [';']) := by
  unfold arrayOf
  split
  · exact absurd rfl hz
  · rfl

/-- The elements of an array of references are read off its descriptor. -/
theorem elementReference?_arrayOf (z : List Char) :
    ∃ w, arrayOf z = '[' :: w ∧ elementReference? w = some z := by
  unfold arrayOf
  split
  · exact ⟨_, rfl, rfl⟩
  · exact ⟨_, rfl, by simp [elementReference?]⟩

theorem isArray_arrayOf (z : List Char) : IsArray (arrayOf z) := by
  obtain ⟨w, hw, -⟩ := elementReference?_arrayOf z
  rw [hw]
  rfl

theorem not_isArray_object : ¬IsArray objectClass.toList := by decide

theorem not_isArray_commonSuperclass (hr : r.NoArrays) {a b : String} (ha : ¬IsArray a.toList)
    (hb : ¬IsArray b.toList) : ¬IsArray (r.commonSuperclass a b).toList := by
  rcases r.commonSuperclass_cases a b with ⟨h, -⟩ | ⟨h, -⟩ | h | ⟨h, -⟩
  · rwa [h]
  · rwa [h]
  · rw [h]
    exact not_isArray_object
  · rcases (Registry.extends_of_mem_superclassChain h).cases_tail with h | ⟨n, -, c, hc, hmem⟩
    · rwa [h]
    · exact hr n c hc _ hmem

/-! ## References -/

/-- Two arrays join element-wise if they have references for elements. -/
theorem joinReferences_cons (r : Registry) (s t : List Char) :
    joinReferences r ('[' :: s) ('[' :: t) =
      match elementReference? s, elementReference? t with
      | some x, some y => arrayOf (joinReferences r x y)
      | _, _ => objectClass.toList := by
  rw [joinReferences]
  split
  · next x y hx hy =>
    simp only [hx, hy]
    generalize joinReferences r x y = z
    by_cases hz : IsArray z
    · obtain ⟨e, rfl⟩ := List.head?_eq_some_iff.1 hz
      rfl
    · rw [arrayOf_of_class hz]
      split
      · exact absurd rfl hz
      · rfl
  · next h =>
    split
    · next x y hx hy => exact (h x y hx hy).elim
    · rfl

theorem joinReferences_arrays (hx : elementReference? s = some x)
    (hy : elementReference? t = some y) :
    joinReferences r ('[' :: s) ('[' :: t) = arrayOf (joinReferences r x y) := by
  rw [joinReferences_cons, hx, hy]

theorem joinReferences_classes (ha : ¬IsArray a) (hb : ¬IsArray b) :
    joinReferences r a b = (r.commonSuperclass (String.ofList a) (String.ofList b)).toList := by
  unfold joinReferences
  split
  · exact absurd rfl ha
  · exact absurd rfl ha
  · exact absurd rfl hb
  · rfl

/-- References join element-wise, at the root class, or as classes. -/
theorem joinReferences_cases (r : Registry) (a b : List Char) :
    (∃ s t x y, a = '[' :: s ∧ b = '[' :: t ∧ elementReference? s = some x ∧
      elementReference? t = some y) ∨
    (IsArray a ∨ IsArray b) ∧ joinReferences r a b = objectClass.toList ∨
    ¬IsArray a ∧ ¬IsArray b := by
  by_cases ha : IsArray a <;> by_cases hb : IsArray b
  · obtain ⟨s, rfl⟩ := List.head?_eq_some_iff.1 ha
    obtain ⟨t, rfl⟩ := List.head?_eq_some_iff.1 hb
    have hjoin := joinReferences_cons r s t
    split at hjoin
    · next x y hx hy => exact .inl ⟨s, t, x, y, rfl, rfl, hx, hy⟩
    · exact .inr (.inl ⟨.inl ha, hjoin⟩)
  · refine .inr (.inl ⟨.inl ha, ?_⟩)
    obtain ⟨s, rfl⟩ := List.head?_eq_some_iff.1 ha
    unfold joinReferences
    split
    · exact absurd rfl hb
    · rfl
    · rfl
    · next h _ => exact absurd rfl (h s)
  · refine .inr (.inl ⟨.inr hb, ?_⟩)
    obtain ⟨t, rfl⟩ := List.head?_eq_some_iff.1 hb
    unfold joinReferences
    split
    · exact absurd rfl ha
    · rfl
    · rfl
    · next h _ => exact (h t rfl).elim
  · exact .inr (.inr ⟨ha, hb⟩)

theorem joinReferences_object (r : Registry) (b : List Char) :
    joinReferences r objectClass.toList b = objectClass.toList := by
  rcases joinReferences_cases r objectClass.toList b with ⟨s, -, -, -, h, -⟩ | ⟨-, h⟩ | ⟨ha, hb⟩
  · exact absurd (congrArg List.head? h) not_isArray_object
  · exact h
  · rw [joinReferences_classes ha hb, String.ofList_toList, Registry.commonSuperclass_object]

/-- Names that stand for arrays of references are taken apart to their elements. -/
theorem element_induction {motive : List Char → Prop} (step : ∀ a,
    (∀ s x, a = '[' :: s → elementReference? s = some x → motive x) → motive a)
    (a : List Char) : motive a := by
  induction hn : a.length using Nat.strong_induction_on generalizing a with
  | h n ih =>
    refine step a fun s x hs hx => ih x.length ?_ x rfl
    have hlength := elementReference?_length hx
    rw [← hn, hs, List.length_cons]
    omega

/-- A join of references absorbs both. -/
theorem joinReferences_join (hr : r.NoArrays) (a b : List Char) :
    joinReferences r (joinReferences r a b) a = joinReferences r a b ∧
      joinReferences r (joinReferences r a b) b = joinReferences r a b := by
  induction a using element_induction generalizing b with
  | step a ih =>
  rcases joinReferences_cases r a b with ⟨s, t, x, y, rfl, rfl, hx, hy⟩ | ⟨-, h⟩ | ⟨ha, hb⟩
  · obtain ⟨w, hw, hxy⟩ := elementReference?_arrayOf (joinReferences r x y)
    obtain ⟨hleft, hright⟩ := ih s x rfl hx y
    rw [joinReferences_arrays hx hy, hw, joinReferences_arrays hxy hx, joinReferences_arrays hxy hy,
      hleft, hright, hw]
    exact ⟨rfl, rfl⟩
  · rw [h, joinReferences_object, joinReferences_object]
    exact ⟨rfl, rfl⟩
  · have hc := not_isArray_commonSuperclass hr (a := String.ofList a) (b := String.ofList b)
      (by rwa [String.toList_ofList]) (by rwa [String.toList_ofList])
    rw [joinReferences_classes ha hb, joinReferences_classes hc ha, joinReferences_classes hc hb,
      String.ofList_toList,
      Registry.commonSuperclass_of_isAssignable (r.isAssignable_commonSuperclass_left _ _),
      Registry.commonSuperclass_of_isAssignable (r.isAssignable_commonSuperclass_right _ _)]
    exact ⟨rfl, rfl⟩

/-- A reference that absorbs another one does so once a third one has joined. -/
theorem joinReferences_absorbs (hr : r.NoArrays) {s a : List Char} (h : joinReferences r s a = s)
    (b : List Char) : joinReferences r (joinReferences r s b) a = joinReferences r s b := by
  induction s using element_induction generalizing a b with
  | step s ih =>
  rcases joinReferences_cases r s b with ⟨s', b', x, y, rfl, rfl, hx, hy⟩ | ⟨-, hb⟩ | ⟨hs, hb⟩
  · rcases joinReferences_cases r ('[' :: s') a with ⟨_, a', _, z, hs, rfl, hx', hz⟩ | ⟨-, ha⟩ | ⟨hs, -⟩
    · obtain rfl := (List.cons.inj hs).2
      obtain rfl := Option.some.inj (hx.symm.trans hx')
      have hxz : joinReferences r x z = x := by
        obtain ⟨w, hw, hxz⟩ := elementReference?_arrayOf (joinReferences r x z)
        rw [joinReferences_arrays hx hz, hw] at h
        obtain rfl := (List.cons.inj h).2
        exact Option.some.inj (hxz.symm.trans hx)
      obtain ⟨w, hw, hxy⟩ := elementReference?_arrayOf (joinReferences r x y)
      rw [joinReferences_arrays hx hy, hw, joinReferences_arrays hxy hz, ih s' x rfl hx hxz y, hw]
    · exact absurd (congrArg List.head? (ha.symm.trans h)) not_isArray_object
    · exact absurd rfl hs
  · rw [hb, joinReferences_object]
  · rcases joinReferences_cases r s a with ⟨_, _, _, _, rfl, -⟩ | ⟨-, ha⟩ | ⟨-, ha⟩
    · exact absurd rfl hs
    · rw [← h, ha, joinReferences_object, joinReferences_object]
    · rw [joinReferences_classes hs ha] at h
      have hc := not_isArray_commonSuperclass hr (a := String.ofList s) (b := String.ofList b)
        (by rwa [String.toList_ofList]) (by rwa [String.toList_ofList])
      have hsa : r.isAssignable (String.ofList s) (String.ofList a) := by
        have := r.isAssignable_commonSuperclass_right (String.ofList s) (String.ofList a)
        rwa [← String.ofList_toList (s := r.commonSuperclass _ _), h] at this
      rw [joinReferences_classes hs hb, joinReferences_classes hc ha, String.ofList_toList,
        Registry.commonSuperclass_of_isAssignable (Registry.isAssignable_commonSuperclass hsa _)]

/-! ## Types -/

section Types

variable {s t u : ValueType}

@[simp] theorem join_self (r : Registry) (s : ValueType) : join r s s = s := if_pos rfl

theorem join_ref {a b : String} (h : a ≠ b) :
    join r (.ref a) (.ref b) = .ref (String.ofList (joinReferences r a.toList b.toList)) := by
  rw [join, if_neg (by simpa using h)]

/-- The ways in which types join. -/
inductive Joins (r : Registry) : ValueType → ValueType → ValueType → Prop
  | self (s : ValueType) : Joins r s s s
  | top (s t : ValueType) : Joins r s t .top
  | nullRef (a : String) : Joins r .null (.ref a) (.ref a)
  | refNull (a : String) : Joins r (.ref a) .null (.ref a)
  | ref (a b : String) : Joins r (.ref a) (.ref b)
      (.ref (String.ofList (joinReferences r a.toList b.toList)))
  | int {s t : ValueType} (hs : s.isIntLike) (ht : t.isIntLike) : Joins r s t .int
  | byteShort : Joins r .byte .short .short
  | shortByte : Joins r .short .byte .short

theorem joins_joinIntLike (r : Registry) (hs : s.isIntLike) (ht : t.isIntLike) :
    Joins r s t (joinIntLike s t) := by
  unfold joinIntLike
  split
  · exact .byteShort
  · exact .shortByte
  · exact .int hs ht

theorem joins (r : Registry) (s t : ValueType) : Joins r s t (join r s t) := by
  by_cases h : s = t
  · subst h
    rw [join_self]
    exact .self s
  unfold join
  rw [if_neg h]
  split
  · exact .top _ t
  · exact .top s _
  · exact .nullRef _
  · exact .refNull _
  · exact .ref _ _
  · split_ifs with hi
    · obtain ⟨hs, ht⟩ := Bool.and_eq_true_iff.1 hi
      exact joins_joinIntLike r hs ht
    · exact .top s t

/-- A type absorbs another one: their join is the first one again. -/
inductive Absorbs (r : Registry) : ValueType → ValueType → Prop
  | self (s : ValueType) : Absorbs r s s
  | top (t : ValueType) : Absorbs r .top t
  | int {t : ValueType} (ht : t.isIntLike) : Absorbs r .int t
  | short : Absorbs r .short .byte
  | null (a : String) : Absorbs r (.ref a) .null
  | ref {a b : String} (h : joinReferences r a.toList b.toList = a.toList) :
    Absorbs r (.ref a) (.ref b)

theorem absorbs_iff : Absorbs r s t ↔ join r s t = s := by
  constructor
  · intro h
    cases h with
    | self => exact join_self r s
    | top => cases t <;> rfl
    | int ht => cases t <;> first | rfl | cases ht
    | short => rfl
    | null => rfl
    | @ref a b h =>
      rcases eq_or_ne a b with rfl | hne
      · exact join_self r _
      · rw [join_ref hne, h, String.ofList_toList]
  · intro h
    have hjoins := joins r s t
    generalize join r s t = u at h hjoins
    cases hjoins with
    | self => exact .self s
    | top => exact h ▸ .top t
    | nullRef a => cases h
    | refNull a => exact .null a
    | ref a b => exact .ref (by simpa using congrArg String.toList (ValueType.ref.inj h))
    | int hs ht => exact h ▸ .int ht
    | byteShort => cases h
    | shortByte => exact .short

theorem Absorbs.isIntLike (h : Absorbs r s t) (hs : s.isIntLike) : t.isIntLike := by
  cases h with
  | self => exact hs
  | top => cases hs
  | int ht => exact ht
  | short => rfl
  | null => cases hs
  | ref => cases hs

/-- What a type absorbs, its join with another one does. -/
theorem Absorbs.join (hr : r.NoArrays) (h : Absorbs r s t) (u : ValueType) :
    Absorbs r (s.join r u) t := by
  have hjoins := joins r s u
  generalize s.join r u = v at hjoins
  cases hjoins with
  | self => exact h
  | top => exact .top t
  | nullRef a =>
    cases h
    exact .null a
  | refNull a => exact h
  | ref a b =>
    cases h with
    | self => exact .ref (by simpa using (joinReferences_join hr a.toList b.toList).1)
    | null => exact .null _
    | ref h => exact .ref (by simpa using joinReferences_absorbs hr h b.toList)
  | int hs _ => exact .int (h.isIntLike hs)
  | byteShort =>
    cases h
    exact .short
  | shortByte => exact h

/-- A join absorbs the type that joined. -/
theorem absorbs_join (hr : r.NoArrays) (s t : ValueType) : Absorbs r (s.join r t) t := by
  have hjoins := joins r s t
  generalize s.join r t = u at hjoins
  cases hjoins with
  | self => exact .self s
  | top => exact .top t
  | nullRef a => exact .self _
  | refNull a => exact .null a
  | ref a b => exact .ref (by simpa using (joinReferences_join hr a.toList b.toList).2)
  | int _ ht => exact .int ht
  | byteShort => exact .self _
  | shortByte => exact .short

end Types

/-! ## Ranks -/

/-- How far a reference can still climb. -/
def referenceRank (r : Registry) : List Char → Nat
  | '[' :: '[' :: e => referenceRank r ('[' :: e) + 1
  | '[' :: s =>
    match _h : elementReference? s with
    | some x => referenceRank r x + 2
    | none => 3
  | a => r.classRank (String.ofList a)
  termination_by a => a.length
  decreasing_by
  · simp
  · have := elementReference?_length _h
    simp only [List.length_cons]
    omega

theorem referenceRank_class (ha : ¬IsArray a) :
    referenceRank r a = r.classRank (String.ofList a) := by
  unfold referenceRank
  split
  · exact absurd rfl ha
  · exact absurd rfl ha
  · rfl

theorem referenceRank_object : referenceRank r objectClass.toList = 1 := by
  rw [referenceRank_class not_isArray_object, String.ofList_toList, Registry.classRank_object]

/-- An element descriptor is an array, or a class between its marks. -/
theorem elementReference?_cases (h : elementReference? s = some x) :
    IsArray x ∧ s = x ∨ s = 'L' :: x ++ [';'] := by
  unfold elementReference? at h
  split at h
  · obtain rfl := Option.some.inj h
    exact .inl ⟨rfl, rfl⟩
  · next rest =>
    split_ifs at h with hlast
    obtain rfl := Option.some.inj h
    exact .inr (by rw [List.cons_append, List.dropLast_append_getLast? _ hlast])
  · cases h

theorem referenceRank_array (hx : IsArray x) :
    referenceRank r ('[' :: x) = referenceRank r x + 1 := by
  obtain ⟨e, rfl⟩ := List.head?_eq_some_iff.1 hx
  rw [referenceRank]

theorem referenceRank_element (x : List Char) :
    referenceRank r ('[' :: ('L' :: x ++ [';'])) = referenceRank r x + 2 := by
  have hx : elementReference? ('L' :: x ++ [';']) = some x := by simp [elementReference?]
  rw [List.cons_append, referenceRank]
  · split
    · next y hy =>
      obtain rfl := Option.some.inj (hx.symm.trans hy)
      rfl
    · next h => cases hx.symm.trans h
  · intro e he
    cases he

theorem referenceRank_arrayOf (hz : ¬IsArray z) :
    referenceRank r (arrayOf z) = referenceRank r z + 2 := by
  rw [arrayOf_of_class hz, referenceRank_element]

theorem arrayOf_of_array (hz : IsArray z) : arrayOf z = '[' :: z := by
  obtain ⟨e, rfl⟩ := List.head?_eq_some_iff.1 hz
  rfl

theorem referenceRank_pos (r : Registry) (a : List Char) : 0 < referenceRank r a := by
  unfold referenceRank
  split
  · exact Nat.succ_pos _
  · split <;> exact Nat.succ_pos _
  · exact Registry.classRank_pos ..

theorem two_lt_referenceRank (ha : IsArray a) : 2 < referenceRank r a := by
  induction a using element_induction with
  | step a ih =>
  obtain ⟨s, rfl⟩ := List.head?_eq_some_iff.1 ha
  cases hs : elementReference? s with
  | none =>
    have harray : ∀ e, s ≠ '[' :: e := by
      rintro e rfl
      cases hs
    rw [referenceRank]
    · split
      · next h => cases hs.symm.trans h
      · exact Nat.lt_succ_self 2
    · exact harray
  | some x =>
    rcases elementReference?_cases hs with ⟨hx, rfl⟩ | rfl
    · have := ih s s rfl hs hx
      rw [referenceRank_array hx]
      omega
    · have := referenceRank_pos r x
      rw [referenceRank_element]
      omega

theorem one_lt_referenceRank (ha : a ≠ objectClass.toList) : 1 < referenceRank r a := by
  by_cases harray : IsArray a
  · have := two_lt_referenceRank (r := r) harray
    omega
  · rw [referenceRank_class harray]
    refine Registry.one_lt_classRank ?_
    rintro h
    exact ha (by rw [← h, String.toList_ofList])

/-- An array joins to an array or to the root class. -/
theorem joinReferences_array (ha : IsArray a) (b : List Char) :
    IsArray (joinReferences r a b) ∨ joinReferences r a b = objectClass.toList := by
  rcases joinReferences_cases r a b with ⟨_, _, _, _, rfl, rfl, hx, hy⟩ | ⟨-, hobject⟩ | ⟨hs, -⟩
  · rw [joinReferences_arrays hx hy]
    exact .inl (isArray_arrayOf _)
  · exact .inr hobject
  · exact absurd ha hs

/-- A join of references that is another one has a lower rank. -/
theorem referenceRank_joinReferences_lt (hr : r.NoArrays) (h : joinReferences r a b ≠ a) :
    referenceRank r (joinReferences r a b) < referenceRank r a := by
  induction a using element_induction generalizing b with
  | step a ih =>
  rcases joinReferences_cases r a b with ⟨s, t, x, y, rfl, rfl, hx, hy⟩ | ⟨-, hobject⟩ | ⟨ha, hb⟩
  · rw [joinReferences_arrays hx hy] at h ⊢
    have hne : joinReferences r x y ≠ x →
        referenceRank r (joinReferences r x y) < referenceRank r x := ih s x rfl hx
    rcases elementReference?_cases hx with ⟨hxarray, rfl⟩ | rfl
    · -- An array of arrays: the elements join to an array, or to the root class.
      have hlt := hne fun he => h (by rw [he, arrayOf_of_array hxarray])
      rw [referenceRank_array hxarray]
      rcases joinReferences_array (r := r) hxarray y with hz | hobject
      · rw [arrayOf_of_array hz, referenceRank_array hz]
        omega
      · have hrank := two_lt_referenceRank (r := r) hxarray
        rw [hobject, referenceRank_arrayOf not_isArray_object, referenceRank_object]
        omega
    · rw [referenceRank_element]
      by_cases hz : IsArray (joinReferences r x y)
      · rw [arrayOf_of_array hz, referenceRank_array hz]
        by_cases he : joinReferences r x y = x
        · rw [he]
          omega
        · have := hne he
          omega
      · have hlt := hne fun he => h (by rw [he, arrayOf_of_class (he ▸ hz)])
        rw [referenceRank_arrayOf hz]
        omega
  · rw [hobject] at h ⊢
    rw [referenceRank_object]
    exact one_lt_referenceRank h.symm
  · rw [joinReferences_classes ha hb] at h ⊢
    have hc := not_isArray_commonSuperclass hr (a := String.ofList a) (b := String.ofList b)
      (by rwa [String.toList_ofList]) (by rwa [String.toList_ofList])
    rw [referenceRank_class hc, referenceRank_class ha, String.ofList_toList]
    refine Registry.classRank_commonSuperclass_lt fun heq => h ?_
    rw [heq, String.toList_ofList]

/-- How far a type can still climb; null is not counted, it never comes back. -/
def rank (r : Registry) : ValueType → Nat
  | top | null => 0
  | ref a => referenceRank r a.toList
  | byte => 3
  | boolean | char | short => 2
  | int | float | long | double | returnAddress => 1

theorem join_ne_null {s t : ValueType} (hs : s ≠ .null) : join r s t ≠ .null := by
  have hjoins := joins r s t
  generalize join r s t = u at hjoins ⊢
  cases hjoins with
  | self => exact hs
  | _ => nofun

/-- A join that is another type has a lower rank, unless null became something. -/
theorem rank_join_lt (hr : r.NoArrays) {s t : ValueType} (hs : s ≠ .null) (h : join r s t ≠ s) :
    rank r (join r s t) < rank r s := by
  have hjoins := joins r s t
  generalize join r s t = u at h hjoins ⊢
  cases hjoins with
  | self => exact absurd rfl h
  | top =>
    cases s with
    | top => exact absurd rfl h
    | null => exact absurd rfl hs
    | ref a => exact referenceRank_pos r a.toList
    | _ => exact Nat.succ_pos _
  | nullRef => exact absurd rfl hs
  | refNull => exact absurd rfl h
  | ref a b =>
    simp only [rank, String.toList_ofList]
    refine referenceRank_joinReferences_lt hr fun he => h ?_
    rw [he, String.ofList_toList]
  | int hi _ =>
    cases s with
    | int => exact absurd rfl h
    | boolean | char | short => exact Nat.lt_succ_self 1
    | byte => exact Nat.lt_add_of_pos_right Nat.two_pos
    | _ => cases hi
  | byteShort => exact Nat.lt_succ_self 2
  | shortByte => exact absurd rfl h

end ValueType

end ConstRestore
