/-
  What a fact table knows.

  * `Same` says that two sources are in one class, `Knows` that a fact is
    recorded of the class of a source;
  * `Grown` is what every operation does: classes only grow, and what is known
    of a class is what was known of its members, and what is new
    (`grown_updateAll`).  So no update loses a fact (`Knows.updateAll`);
  * updates that have been done (`Has`) change nothing (`agrees_updateAll`);
  * `Below` bounds the classes from above: an update joins no more than the
    sources that it names (`Below.updateAll`).
-/
import ConstRestore.Proofs.Classes

namespace ConstRestore

namespace Facts

/-- A fact is among those of a class. -/
def Holds (fs : Facts) : Fact → Prop
  | .usage i => i ∈ fs.usages
  | .paramSource i => i ∈ fs.paramSources
  | .paramUsage a => a ∈ fs.paramUsages
  | .narrowType t => fs.narrowTypes.contains t

theorem not_holds_empty (fact : Fact) : ¬Facts.empty.Holds fact := by
  cases fact with
  | usage | paramSource | paramUsage => exact List.not_mem_nil
  | narrowType t => cases t <;> exact Bool.false_ne_true

theorem holds_add {fs : Facts} {added fact : Fact} :
    (fs.add added).Holds fact ↔ fact = added ∨ fs.Holds fact := by
  cases added <;> cases fact <;>
    simp [Holds, add, OrderedSet.mem_insert, TypeSet.contains_insert, or_comm]

/-- A fact that is there already adds nothing. -/
theorem add_of_holds {fs : Facts} {fact : Fact} (h : fs.Holds fact) : fs.add fact = fs := by
  have hinsert {α : Type} [Ord α] [Std.TransOrd α] [Std.LawfulEqOrd α] {s : OrderedSet α} {a : α}
      (ha : a ∈ s) : s.insert a = s :=
    OrderedSet.ext_mem fun x => by
      rw [OrderedSet.mem_insert, or_iff_right_of_imp (fun hx => hx ▸ ha)]
  cases fact with
  | usage i => rw [add, hinsert h]
  | paramSource i => rw [add, hinsert h]
  | paramUsage a => rw [add, hinsert h]
  | narrowType d =>
    have hbits : (fs.narrowTypes.insert d).bits = fs.narrowTypes.bits := by
      refine BitVec.eq_of_getLsbD_eq fun i hi => ?_
      have hd : fs.narrowTypes.bits.getLsbD d.index = true := h
      simp only [TypeSet.insert, TypeSet.union, TypeSet.single, BitVec.getLsbD_or,
        BitVec.getLsbD_twoPow]
      by_cases hdi : d.index = i
      · simp [← hdi, hd]
      · simp [hdi]
    rw [add, show fs.narrowTypes.insert d = fs.narrowTypes from congrArg TypeSet.mk hbits]

theorem holds_union {fs gs : Facts} {fact : Fact} :
    (fs.union gs).Holds fact ↔ fs.Holds fact ∨ gs.Holds fact := by
  cases fact with
  | usage i => exact OrderedSet.mem_union
  | paramSource i => exact OrderedSet.mem_union
  | paramUsage a => exact OrderedSet.mem_union
  | narrowType t => simp [Holds, union, TypeSet.contains_union]

end Facts

namespace FactTable

/-- Two sources are in one class. -/
def Same (t : FactTable) (x y : Source) : Prop :=
  ∃ root, t.root? x = some root ∧ t.root? y = some root

/-- A fact is recorded of the class of a source. -/
def Knows (t : FactTable) (s : Source) (fact : Fact) : Prop :=
  ∃ fs, t.facts? s = some fs ∧ fs.Holds fact

variable {t u v : FactTable} {s s' x y z : Source} {fact g : Fact}

theorem Same.symm (h : t.Same x y) : t.Same y x :=
  let ⟨root, hx, hy⟩ := h
  ⟨root, hy, hx⟩

theorem Same.trans (h : t.Same x y) (h' : t.Same y z) : t.Same x z := by
  obtain ⟨root, hx, hy⟩ := h
  obtain ⟨root', hy', hz⟩ := h'
  obtain rfl := Option.some.inj (hy.symm.trans hy')
  exact ⟨root, hx, hz⟩

theorem same_self_iff : t.Same x x ↔ (t.root? x).isSome := by
  simp [Same, Option.isSome_iff_exists]

theorem same_root {root : Source} (h : t.root? x = some root) : t.Same x root :=
  ⟨root, h, root?_root h⟩

theorem knows_iff :
    t.Knows s fact ↔ ∃ root, t.root? s = some root ∧ (t.factsAt root).Holds fact := by
  simp [Knows, facts?]

theorem Knows.of_same (h : t.Knows x fact) (hxy : t.Same x y) : t.Knows y fact := by
  obtain ⟨fs, hfs, hfact⟩ := h
  obtain ⟨root, hx, hy⟩ := hxy
  exact ⟨fs, by rw [facts?, hy, ← hx, ← facts?, hfs], hfact⟩

theorem Knows.same_self (h : t.Knows x fact) : t.Same x x := by
  obtain ⟨root, hroot, -⟩ := knows_iff.1 h
  exact ⟨root, hroot, hroot⟩

/-! ## Growing classes -/

/-- Classes grow, and what is known of a class is what was known of its members
    and what is `new` of them. -/
structure Grown (t u : FactTable) (new : Source → Fact → Prop) : Prop where
  same : ∀ x y, t.Same x y → u.Same x y
  known : ∀ x g, new x g → u.Same x x
  knows : ∀ x g, u.Knows x g ↔ ∃ y, u.Same x y ∧ (t.Knows y g ∨ new y g)

namespace Grown

variable {new new' : Source → Fact → Prop}

theorem knows_of_knows (h : t.Grown u new) (hx : t.Knows x g) : u.Knows x g :=
  (h.knows x g).2 ⟨x, h.same x x hx.same_self, .inl hx⟩

theorem knows_of_new (h : t.Grown u new) (hx : new x g) : u.Knows x g :=
  (h.knows x g).2 ⟨x, h.known x g hx, .inr hx⟩

theorem trans (h : t.Grown u new) (h' : u.Grown v new') :
    t.Grown v fun x g => new x g ∨ new' x g where
  same x y hxy := h'.same x y (h.same x y hxy)
  known x g hx := hx.elim (fun hx => h'.same x x (h.known x g hx)) (h'.known x g)
  knows x g := by
    rw [h'.knows]
    constructor
    · rintro ⟨y, hxy, hy | hy⟩
      · obtain ⟨z, hyz, hz⟩ := (h.knows y g).1 hy
        exact ⟨z, hxy.trans (h'.same y z hyz), hz.imp_right .inl⟩
      · exact ⟨y, hxy, .inr (.inr hy)⟩
    · rintro ⟨y, hxy, hy | hy | hy⟩
      · exact ⟨y, hxy, .inl (h.knows_of_knows hy)⟩
      · exact ⟨y, hxy, .inl (h.knows_of_new hy)⟩
      · exact ⟨y, hxy, .inr hy⟩

theorem congr (h : t.Grown u new) (hnew : ∀ x g, new' x g ↔ new x g) : t.Grown u new' := by
  obtain rfl : new' = new := funext fun x => funext fun g => propext (hnew x g)
  exact h

end Grown

/-- Nothing is new. -/
abbrev Unchanged : Source → Fact → Prop := fun _ _ => False

theorem Grown.trans_unchanged (h : t.Grown u Unchanged) (h' : u.Grown v Unchanged) :
    t.Grown v Unchanged :=
  (h.trans h').congr fun _ _ => (or_self_iff).symm

/-- Facts stay where they are if every class keeps its root. -/
theorem grown_of_root?_eq (hroot : ∀ x, u.root? x = t.root? x)
    (hfacts : ∀ x, u.factsAt x = t.factsAt x) : t.Grown u Unchanged where
  same x y := by simp only [Same, hroot, imp_self]
  known _ _ h := h.elim
  knows x g := by
    have hu (x : Source) : u.Knows x g ↔ t.Knows x g := by simp only [knows_iff, hroot, hfacts]
    rw [hu]
    constructor
    · intro h
      obtain ⟨root, hx, -⟩ := knows_iff.1 h
      exact ⟨x, ⟨root, by rw [hroot, hx], by rw [hroot, hx]⟩, .inl h⟩
    · rintro ⟨y, ⟨root, hx, hy⟩, h | h⟩
      · exact h.of_same ⟨root, by rw [← hroot, hy], by rw [← hroot, hx]⟩
      · exact h.elim

theorem grown_compress (t : FactTable) (s : Source) : t.Grown (t.compress s) Unchanged :=
  grown_of_root?_eq (root?_compress t s) (factsAt_compress t s)

theorem factsAt_of_unknown (h : t.root? s = none) : t.factsAt s = .empty := by
  have hs : t.nodes.get? s = none := by
    rw [← Option.not_isSome_iff_eq_none, ← isSome_root?, h]
    exact Bool.false_ne_true
  rw [factsAt, hs, Option.elim_none]

theorem grown_mention (t : FactTable) (s : Source) : t.Grown (t.mention s) Unchanged where
  same x y := by
    rintro ⟨root, hx, hy⟩
    exact ⟨root, root?_mention_of_some hx, root?_mention_of_some hy⟩
  known _ _ h := h.elim
  knows x g := by
    constructor
    · intro h
      obtain ⟨root, hroot, hfact⟩ := knows_iff.1 h
      rw [factsAt_mention] at hfact
      refine ⟨x, ⟨root, hroot, hroot⟩, .inl (knows_iff.2 ?_)⟩
      rw [root?_mention] at hroot
      cases hx : t.root? x with
      | some r =>
        rw [hx, Option.some_or] at hroot
        exact ⟨root, hroot, hfact⟩
      | none =>
        -- A source that is new has no facts.
        rw [hx, Option.none_or] at hroot
        split_ifs at hroot with hxs
        obtain rfl := Option.some.inj hroot
        rw [factsAt_of_unknown (hxs ▸ hx)] at hfact
        exact absurd hfact (Facts.not_holds_empty g)
    · rintro ⟨y, hxy, h | h⟩
      · obtain ⟨root, hy, hfact⟩ := knows_iff.1 h
        have hy : (t.mention s).Knows y g :=
          knows_iff.2 ⟨root, root?_mention_of_some hy, by rwa [factsAt_mention]⟩
        exact hy.of_same hxy.symm
      · exact h.elim

theorem same_mention_self (t : FactTable) (s : Source) : (t.mention s).Same s s :=
  same_self_iff.2 (isSome_root?_mention t s)

theorem grown_record (t : FactTable) (s : Source) (fact : Fact) :
    t.Grown (t.record s fact) fun x g => x = s ∧ g = fact := by
  have hsame (x y : Source) : (t.record s fact).Same x y ↔ (t.mention s).Same x y := by
    simp only [Same, root?_record]
  obtain ⟨root, hroot⟩ := Option.isSome_iff_exists.1 (isSome_root?_mention t s)
  have hmention := grown_mention t s
  refine ⟨fun x y h => (hsame x y).2 (hmention.same x y h), ?_, ?_⟩
  · rintro x g ⟨rfl, -⟩
    exact (hsame x x).2 (same_mention_self t x)
  · intro x g
    have hknows : (t.record s fact).Knows x g ↔
        (t.mention s).Knows x g ∨ (t.mention s).Same x s ∧ g = fact := by
      simp only [knows_iff, root?_record, factsAt_mention, Same, hroot]
      constructor
      · rintro ⟨root', hx, hfact⟩
        rw [factsAt_record hroot] at hfact
        split_ifs at hfact with heq
        · rcases Facts.holds_add.1 hfact with hg | hfact
          · exact .inr ⟨⟨root', hx, heq ▸ rfl⟩, hg⟩
          · exact .inl ⟨root', hx, hfact⟩
        · exact .inl ⟨root', hx, hfact⟩
      · rintro (⟨root', hx, hfact⟩ | ⟨⟨root', hx, heq⟩, rfl⟩)
        · refine ⟨root', hx, ?_⟩
          rw [factsAt_record hroot]
          split_ifs
          · exact Facts.holds_add.2 (.inr hfact)
          · exact hfact
        · obtain rfl := Option.some.inj heq
          refine ⟨root, hx, ?_⟩
          rw [factsAt_record hroot, if_pos rfl]
          exact Facts.holds_add.2 (.inl rfl)
    rw [hknows, hmention.knows]
    simp only [hsame]
    constructor
    · rintro (⟨y, hxy, hy | hy⟩ | ⟨hxs, rfl⟩)
      · exact ⟨y, hxy, .inl hy⟩
      · exact hy.elim
      · exact ⟨s, hxs, .inr ⟨rfl, rfl⟩⟩
    · rintro ⟨y, hxy, hy | ⟨rfl, rfl⟩⟩
      · exact .inl ⟨y, hxy, .inl hy⟩
      · exact .inr ⟨hxy, rfl⟩

/-! ## Classes that join -/

section Join

variable {a b : Source} (ha : t.root? a = some a) (hb : t.root? b = some b) (hne : b ≠ a)

include ha hb hne in
theorem same_join_iff : (t.join a b).Same x y ↔ t.Same x y ∨
    t.Same x a ∧ t.Same y b ∨ t.Same x b ∧ t.Same y a := by
  simp only [Same, root?_join ha hb hne, Option.map_eq_some_iff, ha, hb]
  constructor
  · rintro ⟨-, ⟨rx, hx, rfl⟩, ry, hy, h⟩
    split_ifs at h with hryb hrxb hrxb
    · exact .inl ⟨rx, hx, by rw [hy, hryb, hrxb]⟩
    · exact .inr (.inl ⟨⟨rx, hx, by rw [h]⟩, ry, hy, by rw [hryb]⟩)
    · exact .inr (.inr ⟨⟨rx, hx, by rw [hrxb]⟩, ry, hy, by rw [h]⟩)
    · exact .inl ⟨rx, hx, by rw [hy, h]⟩
  · rintro (⟨root, hx, hy⟩ | ⟨⟨rx, hx, hrx⟩, ry, hy, hry⟩ | ⟨⟨rx, hx, hrx⟩, ry, hy, hry⟩)
    · exact ⟨_, ⟨root, hx, rfl⟩, root, hy, rfl⟩
    · obtain rfl := Option.some.inj hrx
      obtain rfl := Option.some.inj hry
      exact ⟨a, ⟨a, hx, if_neg hne.symm⟩, b, hy, if_pos rfl⟩
    · obtain rfl := Option.some.inj hrx
      obtain rfl := Option.some.inj hry
      exact ⟨a, ⟨b, hx, if_pos rfl⟩, a, hy, if_neg hne.symm⟩

include ha hb hne in
theorem holds_join (root : Source) :
    ((t.join a b).factsAt (if root = b then a else root)).Holds g ↔
      (t.factsAt root).Holds g ∨ root = b ∧ (t.factsAt a).Holds g ∨
        root = a ∧ (t.factsAt b).Holds g := by
  by_cases hroot : root = b
  · rw [if_pos hroot, factsAt_join ha hb hne, if_neg hne.symm, if_pos rfl, Facts.holds_union]
    simp [hroot, hne, or_comm]
  rw [if_neg hroot, factsAt_join ha hb hne, if_neg hroot]
  split_ifs with hroot'
  · simp [hroot', hne.symm, Facts.holds_union]
  · simp [hroot, hroot']

include ha hb hne in
theorem grown_join : t.Grown (t.join a b) Unchanged where
  same x y h := (same_join_iff ha hb hne).2 (.inl h)
  known _ _ h := h.elim
  knows x g := by
    have hknows (x : Source) : (t.join a b).Knows x g ↔ ∃ root, t.root? x = some root ∧
        ((t.join a b).factsAt (if root = b then a else root)).Holds g := by
      simp [knows_iff, root?_join ha hb hne]
    simp only [holds_join ha hb hne] at hknows
    constructor
    · intro h
      obtain ⟨root, hx, hfact | ⟨rfl, hfact⟩ | ⟨rfl, hfact⟩⟩ := (hknows x).1 h
      · exact ⟨x, (same_join_iff ha hb hne).2 (.inl ⟨root, hx, hx⟩), .inl (knows_iff.2 ⟨root, hx, hfact⟩)⟩
      · exact ⟨a, (same_join_iff ha hb hne).2 (.inr (.inr ⟨same_root hx, a, ha, ha⟩)),
          .inl (knows_iff.2 ⟨a, ha, hfact⟩)⟩
      · exact ⟨b, (same_join_iff ha hb hne).2 (.inr (.inl ⟨same_root hx, b, hb, hb⟩)),
          .inl (knows_iff.2 ⟨b, hb, hfact⟩)⟩
    · rintro ⟨y, hxy, hy | hy⟩
      · obtain ⟨root, hroot, hfact⟩ := knows_iff.1 hy
        exact ((hknows y).2 ⟨root, hroot, .inl hfact⟩).of_same hxy.symm
      · exact hy.elim

end Join

/-- What a union of two sources does: it joins the classes of two roots, or
    nothing if there is one class. -/
theorem unitePair_cases (t : FactTable) (s s' : Source) :
    ∃ u a b, u = (((t.mention s).mention s').compress s).compress s' ∧ u.root? s = some a ∧
      u.root? s' = some b ∧ (a = b ∧ t.unitePair s s' = u ∨
        a ≠ b ∧ (t.unitePair s s' = u.join a b ∨ t.unitePair s s' = u.join b a)) := by
  obtain ⟨a, ha, -⟩ := (grown_mention (t.mention s) s').same s s (same_mention_self t s)
  obtain ⟨b, hb⟩ := Option.isSome_iff_exists.1 (isSome_root?_mention (t.mention s) s')
  refine ⟨_, a, b, rfl, by rw [root?_compress, root?_compress, ha],
    by rw [root?_compress, root?_compress, hb], ?_⟩
  simp only [unitePair, root?_compress, ha, hb]
  split_ifs with hab
  · exact .inl ⟨hab, rfl⟩
  · exact .inr ⟨hab, .inl rfl⟩
  · exact .inr ⟨hab, .inr rfl⟩

theorem grown_unitePair (t : FactTable) (s s' : Source) :
    t.Grown (t.unitePair s s') Unchanged ∧ (t.unitePair s s').Same s s' := by
  obtain ⟨u, a, b, hu, ha, hb, hcases⟩ := t.unitePair_cases s s'
  have hgrown : t.Grown u Unchanged := by
    rw [hu]
    exact (((grown_mention t s).trans_unchanged (grown_mention _ s')).trans_unchanged
      (grown_compress _ s)).trans_unchanged (grown_compress _ s')
  have hsa := same_root ha
  have hsb := same_root hb
  rcases hcases with ⟨rfl, h⟩ | ⟨hne, h | h⟩
  · rw [h]
    exact ⟨hgrown, a, ha, hb⟩
  · rw [h]
    exact ⟨hgrown.trans_unchanged (grown_join (root?_root ha) (root?_root hb) hne.symm),
      (same_join_iff (root?_root ha) (root?_root hb) hne.symm).2 (.inr (.inl ⟨hsa, hsb⟩))⟩
  · rw [h]
    exact ⟨hgrown.trans_unchanged (grown_join (root?_root hb) (root?_root ha) hne),
      (same_join_iff (root?_root hb) (root?_root ha) hne).2 (.inr (.inr ⟨hsa, hsb⟩))⟩

theorem grown_foldl_unitePair (t : FactTable) (s : Source) (sources : List Source) :
    t.Grown (sources.foldl (·.unitePair s ·) t) Unchanged ∧
      ∀ x ∈ sources, (sources.foldl (·.unitePair s ·) t).Same s x := by
  induction sources generalizing t with
  | nil => exact ⟨grown_of_root?_eq (fun _ => rfl) fun _ => rfl, nofun⟩
  | cons y sources ih =>
    obtain ⟨hgrown, hsame⟩ := grown_unitePair t s y
    obtain ⟨hgrown', hsames⟩ := ih (t.unitePair s y)
    exact ⟨hgrown.trans_unchanged hgrown',
      List.forall_mem_cons.2 ⟨hgrown'.same s y hsame, hsames⟩⟩

/-- All sources of a list are in one class once it is united. -/
theorem grown_unite (t : FactTable) (sources : List Source) :
    t.Grown (t.unite sources) Unchanged ∧
      ∀ x ∈ sources, ∀ y ∈ sources, (t.unite sources).Same x y := by
  cases sources with
  | nil => exact ⟨grown_of_root?_eq (fun _ => rfl) fun _ => rfl, nofun⟩
  | cons s rest =>
    obtain ⟨hgrown, hsame⟩ := grown_foldl_unitePair (t.mention s) s rest
    have hall : ∀ x ∈ s :: rest, (t.unite (s :: rest)).Same s x :=
      List.forall_mem_cons.2 ⟨hgrown.same s s (same_mention_self t s), hsame⟩
    exact ⟨(grown_mention t s).trans_unchanged hgrown,
      fun x hx y hy => (hall x hx).symm.trans (hall y hy)⟩

theorem grown_update (t : FactTable) (up : FactUpdate) :
    t.Grown (t.update up) fun x g => up = .record x g := by
  cases up with
  | record s fact => exact (grown_record t s fact).congr fun x g => by simp [eq_comm]
  | unite sources => exact (grown_unite t sources).1.congr fun x g => by simp

/-- What is known after updates is what was known and what they record, of any
    member of a class. -/
theorem grown_updateAll (t : FactTable) (us : List FactUpdate) :
    t.Grown (t.updateAll us) fun x g => .record x g ∈ us := by
  induction us generalizing t with
  | nil => exact (grown_of_root?_eq (fun _ => rfl) fun _ => rfl).congr fun x g => by simp
  | cons up us ih =>
    exact ((grown_update t up).trans (ih (t.update up))).congr fun x g => by
      simp [eq_comm]

/-- No update loses a fact. -/
theorem Knows.updateAll (h : t.Knows s fact) (us : List FactUpdate) :
    (t.updateAll us).Knows s fact := (grown_updateAll t us).knows_of_knows h

/-- A recorded fact is known when all updates are done. -/
theorem knows_updateAll {us : List FactUpdate} (t : FactTable) (h : .record s fact ∈ us) :
    (t.updateAll us).Knows s fact := (grown_updateAll t us).knows_of_new h

theorem Same.updateAll (h : t.Same x y) (us : List FactUpdate) : (t.updateAll us).Same x y :=
  (grown_updateAll t us).same x y h

/-- The sources of a united list are in one class when all updates are done. -/
theorem same_updateAll {us : List FactUpdate} {sources : List Source} (t : FactTable)
    (h : .unite sources ∈ us) (hx : x ∈ sources) (hy : y ∈ sources) :
    (t.updateAll us).Same x y := by
  induction us generalizing t with
  | nil => cases h
  | cons up us ih =>
    rcases List.mem_cons.1 h with rfl | h
    · exact ((grown_unite t sources).2 x hx y hy).updateAll us
    · exact ih _ h

/-! ## Updates that change nothing -/

/-- What an update would do has been done. -/
def Has (t : FactTable) : FactUpdate → Prop
  | .record s fact => t.Knows s fact
  | .unite sources => ∀ x ∈ sources, ∀ y ∈ sources, t.Same x y

theorem Has.updateAll {up : FactUpdate} (h : t.Has up) (us : List FactUpdate) :
    (t.updateAll us).Has up := by
  cases up with
  | record s fact => exact Knows.updateAll h us
  | unite sources => exact fun x hx y hy => (h x hx y hy).updateAll us

theorem has_updateAll (t : FactTable) {us : List FactUpdate} {up : FactUpdate} (h : up ∈ us) :
    (t.updateAll us).Has up := by
  cases up with
  | record s fact => exact knows_updateAll t h
  | unite sources => exact fun x hx y hy => same_updateAll t h hx hy

/-- Two tables have the same classes, with the same roots and facts. -/
structure Agrees (t u : FactTable) : Prop where
  root? : ∀ x, u.root? x = t.root? x
  factsAt : ∀ x, u.factsAt x = t.factsAt x

theorem Agrees.refl (t : FactTable) : t.Agrees t := ⟨fun _ => rfl, fun _ => rfl⟩

theorem Agrees.trans (h : t.Agrees u) (h' : u.Agrees v) : t.Agrees v :=
  ⟨fun x => (h'.root? x).trans (h.root? x), fun x => (h'.factsAt x).trans (h.factsAt x)⟩

theorem Agrees.has (h : t.Agrees u) {up : FactUpdate} (hup : t.Has up) : u.Has up := by
  cases up with
  | record s fact =>
    obtain ⟨root, hroot, hfact⟩ := knows_iff.1 hup
    exact knows_iff.2 ⟨root, (h.root? s).trans hroot, by rwa [h.factsAt]⟩
  | unite sources =>
    intro x hx y hy
    obtain ⟨root, hxroot, hyroot⟩ := hup x hx y hy
    exact ⟨root, (h.root? x).trans hxroot, (h.root? y).trans hyroot⟩

theorem agrees_compress (t : FactTable) (s : Source) : t.Agrees (t.compress s) :=
  ⟨root?_compress t s, factsAt_compress t s⟩

theorem agrees_record (h : t.Knows s fact) : t.Agrees (t.record s fact) := by
  obtain ⟨root, hroot, hfact⟩ := knows_iff.1 h
  have hmention : t.mention s = t := mention_of_known (by rw [hroot, Option.isSome_some])
  refine ⟨fun x => by rw [root?_record, hmention], fun x => ?_⟩
  rw [factsAt_record (by rwa [hmention])]
  split_ifs with hx
  · exact Facts.add_of_holds (hx ▸ hfact)
  · rfl

theorem agrees_unitePair (h : t.Same s s') : t.Agrees (t.unitePair s s') := by
  obtain ⟨root, hs, hs'⟩ := h
  have hknown {x : Source} (hx : t.root? x = some root) : t.mention x = t :=
    mention_of_known (by rw [hx, Option.isSome_some])
  simp only [unitePair, hknown hs, hknown hs', root?_compress, hs, hs', if_true]
  exact (agrees_compress t s).trans (agrees_compress _ s')

theorem agrees_foldl_unitePair {sources : List Source} (h : ∀ x ∈ sources, t.Same s x) :
    t.Agrees (sources.foldl (·.unitePair s ·) t) := by
  induction sources generalizing t with
  | nil => exact .refl t
  | cons y sources ih =>
    have ⟨hy, hsources⟩ := List.forall_mem_cons.1 h
    have hpair := agrees_unitePair hy
    refine hpair.trans (ih fun x hx => ?_)
    obtain ⟨root, hsroot, hxroot⟩ := hsources x hx
    exact ⟨root, (hpair.root? s).trans hsroot, (hpair.root? x).trans hxroot⟩

theorem agrees_update {up : FactUpdate} (h : t.Has up) : t.Agrees (t.update up) := by
  cases up with
  | record s fact => exact agrees_record h
  | unite sources =>
    cases sources with
    | nil => exact .refl t
    | cons s rest =>
      have hs := h s List.mem_cons_self
      have hmention : t.mention s = t := mention_of_known (same_self_iff.1 (hs s List.mem_cons_self))
      rw [update, unite, hmention]
      exact agrees_foldl_unitePair fun x hx => hs x (List.mem_cons_of_mem _ hx)

/-- Updates that have been done change nothing. -/
theorem agrees_updateAll {us : List FactUpdate} (h : ∀ up ∈ us, t.Has up) :
    t.Agrees (t.updateAll us) := by
  induction us generalizing t with
  | nil => exact .refl t
  | cons up us ih =>
    have ⟨hup, hus⟩ := List.forall_mem_cons.1 h
    have hupdate := agrees_update hup
    exact hupdate.trans (ih fun up' hup' => hupdate.has (hus up' hup'))

end FactTable

/-! ## Classes from above -/

/-- The sources that an update names; it makes them one class. -/
def FactUpdate.sources : FactUpdate → List Source
  | record s _ => [s]
  | unite sources => sources

/-- An update that joins no classes. -/
def FactUpdate.IsRecord : FactUpdate → Prop
  | record .. => True
  | unite _ => False

namespace FactTable

/-- Sources of one class are related. -/
def Below (t : FactTable) (R : Source → Source → Prop) : Prop := ∀ x y, t.Same x y → R x y

theorem below_empty (R : Source → Source → Prop) : empty.Below R := by
  rintro x y ⟨root, hx, -⟩
  cases (root?_of_unknown (t := empty) (s := x) rfl).symm.trans hx

section Below

variable {t : FactTable} {R : Source → Source → Prop} (hsymm : ∀ x y, R x y → R y x)
  (htrans : ∀ x y z, R x y → R y z → R x z)

theorem below_of_root?_eq {u : FactTable} (h : t.Below R) (hroot : ∀ x, u.root? x = t.root? x) :
    u.Below R := by
  simpa only [Below, Same, hroot] using h

theorem Below.mention (h : t.Below R) {s : Source} (hs : R s s) : (t.mention s).Below R := by
  -- Only a source that was not known can have got a root, which is itself then.
  have hnew {x : Source} (hx : t.root? x = none) {root : Source}
      (hroot : (t.mention s).root? x = some root) : x = s ∧ root = s := by
    rw [root?_mention, hx, Option.none_or] at hroot
    split_ifs at hroot with hxs
    exact ⟨hxs, (Option.some.inj hroot).symm⟩
  have hold {x root : Source} (hx : (t.root? x).isSome)
      (hroot : (t.mention s).root? x = some root) : t.root? x = some root := by
    obtain ⟨r, hr⟩ := Option.isSome_iff_exists.1 hx
    rwa [root?_mention, hr, Option.some_or, ← hr] at hroot
  have hclash {x y : Source} (hx : t.root? x = none) {root : Source}
      (hxroot : (t.mention s).root? x = some root) (hy : t.root? y = some root) : False := by
    obtain ⟨rfl, rfl⟩ := hnew hx hxroot
    cases hx.symm.trans (root?_root hy)
  rintro x y ⟨root, hx, hy⟩
  cases hxt : t.root? x with
  | none =>
    cases hyt : t.root? y with
    | none =>
      rw [(hnew hxt hx).1, (hnew hyt hy).1]
      exact hs
    | some r => exact (hclash hxt hx (hold (by simp [hyt]) hy)).elim
  | some r =>
    cases hyt : t.root? y with
    | none => exact (hclash hyt hy (hold (by simp [hxt]) hx)).elim
    | some r' => exact h x y ⟨root, hold (by simp [hxt]) hx, hold (by simp [hyt]) hy⟩

include hsymm htrans in
theorem Below.join (h : t.Below R) {a b : Source} (ha : t.root? a = some a)
    (hb : t.root? b = some b) (hne : b ≠ a) (hab : R a b) : (t.join a b).Below R := by
  intro x y hxy
  rcases (same_join_iff ha hb hne).1 hxy with hxy | ⟨hxa, hyb⟩ | ⟨hxb, hya⟩
  · exact h x y hxy
  · exact htrans _ _ _ (htrans _ _ _ (h x a hxa) hab) (hsymm _ _ (h y b hyb))
  · exact htrans _ _ _ (htrans _ _ _ (h x b hxb) (hsymm _ _ hab)) (hsymm _ _ (h y a hya))

include hsymm htrans in
theorem Below.unitePair (h : t.Below R) {s s' : Source} (hs : R s s') :
    (t.unitePair s s').Below R := by
  obtain ⟨u, a, b, hu, ha, hb, hcases⟩ := t.unitePair_cases s s'
  have hself : R s s := htrans _ _ _ hs (hsymm _ _ hs)
  have hself' : R s' s' := htrans _ _ _ (hsymm _ _ hs) hs
  have hbelow : u.Below R := by
    refine below_of_root?_eq ((h.mention hself).mention hself') fun x => ?_
    rw [hu, root?_compress, root?_compress]
  have hab : R a b :=
    htrans _ _ _ (htrans _ _ _ (hsymm _ _ (hbelow s a (same_root ha))) hs)
      (hbelow s' b (same_root hb))
  rcases hcases with ⟨-, hpair⟩ | ⟨hne, hpair | hpair⟩ <;> rw [hpair]
  · exact hbelow
  · exact hbelow.join hsymm htrans (root?_root ha) (root?_root hb) hne.symm hab
  · exact hbelow.join hsymm htrans (root?_root hb) (root?_root ha) hne (hsymm _ _ hab)

include hsymm htrans in
theorem Below.update (h : t.Below R) {up : FactUpdate}
    (hup : ∀ x ∈ up.sources, ∀ y ∈ up.sources, R x y) : (t.update up).Below R := by
  cases up with
  | record s fact =>
    have hs := hup s List.mem_cons_self s List.mem_cons_self
    exact below_of_root?_eq (h.mention hs) (root?_record t s fact)
  | unite sources =>
    cases sources with
    | nil => exact h
    | cons s rest =>
      have hs := hup s List.mem_cons_self
      have hrest : ∀ y ∈ rest, R s y := fun y hy => hs y (List.mem_cons_of_mem _ hy)
      have hmention := h.mention (hs s List.mem_cons_self)
      show (rest.foldl (·.unitePair s ·) (t.mention s)).Below R
      clear hup hs h
      generalize t.mention s = u at hmention
      induction rest generalizing u with
      | nil => exact hmention
      | cons y rest ih =>
        have ⟨hy, hrest⟩ := List.forall_mem_cons.1 hrest
        exact ih hrest _ (hmention.unitePair hsymm htrans hy)

include hsymm htrans in
/-- Updates join no more than the sources that each of them names. -/
theorem Below.updateAll (h : t.Below R) {us : List FactUpdate}
    (hus : ∀ up ∈ us, ∀ x ∈ up.sources, ∀ y ∈ up.sources, R x y) : (t.updateAll us).Below R := by
  induction us generalizing t with
  | nil => exact h
  | cons up us ih =>
    have ⟨hup, hus⟩ := List.forall_mem_cons.1 hus
    exact ih (h.update hsymm htrans hup) hus

end Below

end FactTable

end ConstRestore
