/-
  The fact table is a partition with shared facts.

  `classes us` is the plain partition that a list of updates describes: the
  equivalence that the united lists generate.  `updateAll_partition` says that
  the table holds it, with the facts of all members, whatever the order of the
  updates, and that a root stays one until classes are joined.
-/
import ConstRestore.Proofs.Known

namespace ConstRestore

/-! ## The partition of a list of updates -/

/-- A source is named by one of some updates. -/
def Mentioned (us : List FactUpdate) (x : Source) : Prop := ∃ up ∈ us, x ∈ up.sources

/-- Two sources stand in one list that is united. -/
def Linked (us : List FactUpdate) (x y : Source) : Prop := ∃ l, .unite l ∈ us ∧ x ∈ l ∧ y ∈ l

/-- The equivalence that the united lists generate. -/
def classes (us : List FactUpdate) : Setoid Source := Relation.EqvGen.setoid (Linked us)

namespace FactTable

variable {t : FactTable} {us : List FactUpdate} {x y : Source}

/-! ## Classes -/

theorem same_of_mentioned (h : Mentioned us x) : (t.updateAll us).Same x x := by
  obtain ⟨up, hup, hx⟩ := h
  cases up with
  | record s fact =>
    obtain rfl := List.mem_singleton.1 hx
    exact (knows_updateAll t hup).same_self
  | unite l => exact same_updateAll t hup hx hx

theorem root?_eq_of_classes (h : classes us x y) :
    (t.updateAll us).root? x = (t.updateAll us).root? y := by
  induction h with
  | rel x y hxy =>
    obtain ⟨l, hl, hx, hy⟩ := hxy
    obtain ⟨root, hx, hy⟩ := same_updateAll t hl hx hy
    exact hx.trans hy.symm
  | refl x => rfl
  | symm x y _ ih => exact ih.symm
  | trans x y z _ _ ih ih' => exact ih.trans ih'

/-- Sources of one class have been named and are related by the lists. -/
theorem below_classes (us : List FactUpdate) : (empty.updateAll us).Below fun x y =>
    Mentioned us x ∧ Mentioned us y ∧ classes us x y := by
  refine Below.updateAll ?_ ?_ (below_empty _) ?_
  · rintro x y ⟨hx, hy, hxy⟩
    exact ⟨hy, hx, (classes us).symm hxy⟩
  · rintro x y z ⟨hx, -, hxy⟩ ⟨-, hz, hyz⟩
    exact ⟨hx, hz, (classes us).trans hxy hyz⟩
  · intro up hup x hx y hy
    refine ⟨⟨up, hup, hx⟩, ⟨up, hup, hy⟩, ?_⟩
    cases up with
    | record s fact =>
      rw [List.mem_singleton.1 hx, List.mem_singleton.1 hy]
    | unite l => exact .rel x y ⟨l, hup, hx, hy⟩

theorem isSome_root?_iff_mentioned (us : List FactUpdate) (x : Source) :
    ((empty.updateAll us).root? x).isSome ↔ Mentioned us x :=
  same_self_iff.symm.trans ⟨fun h => (below_classes us x x h).1, same_of_mentioned⟩

theorem same_iff_classes (hx : Mentioned us x) :
    (empty.updateAll us).Same x y ↔ classes us x y := by
  refine ⟨fun h => (below_classes us x y h).2.2, fun h => ?_⟩
  obtain ⟨root, hroot, -⟩ := same_of_mentioned (t := empty) hx
  exact ⟨root, hroot, (root?_eq_of_classes h).symm.trans hroot⟩

theorem knows_iff_recorded (hx : Mentioned us x) {fact : Fact} :
    (empty.updateAll us).Knows x fact ↔ ∃ y, classes us x y ∧ .record y fact ∈ us := by
  have hempty (y : Source) : ¬empty.Knows y fact := fun h => nomatch below_empty (fun _ _ => False)
    y y h.same_self
  rw [(grown_updateAll empty us).knows]
  refine exists_congr fun y => ?_
  rw [same_iff_classes hx, or_iff_right (hempty y)]

/-! ## Roots -/

/-- The roots of all classes. -/
def roots (t : FactTable) : List Source :=
  (t.nodes.entries.filter fun (s, n) => n.parent = s).map (·.1)

theorem classCount_eq (t : FactTable) : t.classCount = t.roots.length := by
  rw [classCount, roots, List.length_map, List.countP_eq_length_filter]

theorem nodup_roots (t : FactTable) : t.roots.Nodup :=
  t.nodes.distinct.sublist (List.filter_sublist.map _)

theorem mem_roots : x ∈ t.roots ↔ t.root? x = some x := by
  simp only [roots, List.mem_map, List.mem_filter, decide_eq_true_eq, Prod.exists,
    exists_and_right, exists_eq_right, Table.mem_entries_iff]
  constructor
  · rintro ⟨n, hn, hroot⟩
    exact root?_of_root hn hroot
  · exact node_of_root?

/-- There are as many classes as roots. -/
theorem classCount_eq_ncard (us : List FactUpdate) : (empty.updateAll us).classCount =
    ((Quotient.mk (classes us)) '' {x | Mentioned us x}).ncard := by
  have hroot {x root : Source} (h : (empty.updateAll us).root? x = some root) :
      Mentioned us x := (isSome_root?_iff_mentioned us x).1 (by rw [h, Option.isSome_some])
  have himage : (Quotient.mk (classes us)) '' {x | Mentioned us x} =
      (Quotient.mk (classes us)) '' ((empty.updateAll us).roots.toFinset : Set Source) := by
    ext c
    constructor
    · rintro ⟨x, hx, rfl⟩
      obtain ⟨root, h, -⟩ := same_of_mentioned (t := empty) hx
      refine ⟨root, by simpa using mem_roots.2 (root?_root h), ?_⟩
      exact Quotient.sound ((classes us).symm ((same_iff_classes hx).1 (same_root h)))
    · rintro ⟨root, h, rfl⟩
      exact ⟨root, hroot (mem_roots.1 (by simpa using h)), rfl⟩
  have hinj : Set.InjOn (Quotient.mk (classes us)) ((empty.updateAll us).roots.toFinset : Set Source) := by
    intro x hx y hy hxy
    have hx := mem_roots.1 (List.mem_toFinset.1 (Finset.mem_coe.1 hx))
    have hy := mem_roots.1 (List.mem_toFinset.1 (Finset.mem_coe.1 hy))
    obtain ⟨root, hrx, hry⟩ := (same_iff_classes (hroot hx)).2 (Quotient.exact hxy)
    exact (Option.some.inj (hx.symm.trans hrx)).trans (Option.some.inj (hy.symm.trans hry)).symm
  rw [himage, hinj.ncard_image, Set.ncard_coe_finset, List.toFinset_card_of_nodup (nodup_roots _),
    classCount_eq]

/-- A root stays the root of its class until classes are joined. -/
theorem root?_updateAll_records {records : List FactUpdate}
    (hrecords : ∀ up ∈ records, up.IsRecord) {root : Source} (h : t.root? x = some root) :
    (t.updateAll records).root? x = some root := by
  induction records generalizing t with
  | nil => exact h
  | cons up records ih =>
    have ⟨hup, hrest⟩ := List.forall_mem_cons.1 hrecords
    cases up with
    | record s fact =>
      exact ih hrest ((root?_record t s fact x).trans (root?_mention_of_some h))
    | unite l => exact hup.elim

/-! ## The whole -/

/-- **The table is the partition, with shared facts.**  After any updates of an empty table:
    a source is known if it was named; known sources have the same root exactly if the united
    lists relate them; the facts of a source are those recorded of any member of its class; the
    classes are counted; and the root of a class, and the one that a record changed, stays its
    root while nothing is united. -/
theorem updateAll_partition (us : List FactUpdate) :
    (∀ x, ((empty.updateAll us).root? x).isSome ↔ Mentioned us x) ∧
    (∀ x y, Mentioned us x → ((empty.updateAll us).root? x = (empty.updateAll us).root? y ↔
      classes us x y)) ∧
    (∀ x, Mentioned us x → ∃ fs, (empty.updateAll us).facts? x = some fs ∧
      ∀ fact, fs.Holds fact ↔ ∃ y, classes us x y ∧ .record y fact ∈ us) ∧
    (empty.updateAll us).classCount =
      ((Quotient.mk (classes us)) '' {x | Mentioned us x}).ncard ∧
    (∀ records : List FactUpdate, (∀ up ∈ records, up.IsRecord) →
      (∀ x root, (empty.updateAll us).root? x = some root →
        (empty.updateAll (us ++ records)).root? x = some root) ∧
      ∀ x fact, ∃ root, ((empty.updateAll us).record x fact).factsAt root =
          ((empty.updateAll us).factsAt root).add fact ∧
        (empty.updateAll (us ++ .record x fact :: records)).root? x = some root) := by
  refine ⟨isSome_root?_iff_mentioned us, ?_, ?_, classCount_eq_ncard us, ?_⟩
  · intro x y hx
    obtain ⟨root, hroot, -⟩ := same_of_mentioned (t := empty) hx
    rw [← same_iff_classes hx, Same, hroot]
    simp [eq_comm]
  · intro x hx
    obtain ⟨root, hroot, -⟩ := same_of_mentioned (t := empty) hx
    refine ⟨_, by rw [facts?, hroot, Option.map_some], fun fact => ?_⟩
    rw [← knows_iff_recorded hx, knows_iff, hroot]
    simp
  · intro records hrecords
    have happend (us' : List FactUpdate) :
        empty.updateAll (us ++ us') = (empty.updateAll us).updateAll us' := List.foldl_append ..
    refine ⟨fun x root h => ?_, fun x fact => ?_⟩
    · rw [happend]
      exact root?_updateAll_records hrecords h
    · obtain ⟨root, hroot⟩ :=
        Option.isSome_iff_exists.1 (isSome_root?_mention (empty.updateAll us) x)
      refine ⟨root, by rw [factsAt_record hroot, if_pos rfl], ?_⟩
      rw [happend]
      exact root?_updateAll_records hrecords ((root?_record ..).trans hroot)

end FactTable

end ConstRestore
