/-
  Frames that have gone into others.

  * `Frame.Became` says that merges made one frame of another, `WentInto`
    that a frame arrived where there is another one now; what the merges learnt
    is in the fact table;
  * a frame accounts for all that went into it (`WentInto.within`);
  * it also absorbs them (`WentInto.absorbed`): to merge one of them again
    changes neither the frame nor the facts (`Frame.Absorbs.merge_eq`), however
    the frame grew in between.
-/
import ConstRestore.Proofs.Join
import ConstRestore.Proofs.Known
import ConstRestore.Proofs.Within

namespace ConstRestore

variable {r : Registry} {t u : FactTable}

/-! ## Slots -/

/-- A slot absorbs another one: its type and its sources do, and the sources are
    one value unless the slot is unusable or the other one itself. -/
structure Slot.Absorbs (r : Registry) (t : FactTable) (s a : Slot) : Prop where
  type : s.type.Absorbs r a.type
  sources : ∀ x ∈ a.sources, x ∈ s.sources
  same : s = a ∨ s.type = .top ∨ t.Has (.unite s.sources.toList)

namespace Slot

variable {s a : Slot}

theorem Absorbs.refl (s : Slot) : s.Absorbs r t s := ⟨.self s.type, fun _ hx => hx, .inl rfl⟩

theorem Absorbs.mono (h : s.Absorbs r t a) (hfacts : ∀ up, t.Has up → u.Has up) :
    s.Absorbs r u a :=
  ⟨h.type, h.sources, h.same.imp_right (Or.imp_right (hfacts _))⟩

/-- A merge of different slots. -/
theorem merge_of_ne (h : s ≠ a) : s.merge r a =
    (⟨s.type.join r a.type, s.sources.union a.sources⟩,
      decide (s.type.join r a.type ≠ s.type ∨
        (s.sources.union a.sources).size ≠ s.sources.size),
      if s.type.join r a.type = .top then []
      else [.unite (s.sources.union a.sources).toList]) := if_neg h

theorem merge_self (s : Slot) : s.merge r s = (s, false, []) := if_pos rfl

/-- The sources of a merge are one value if it is usable. -/
theorem same_of_merge (hne : s ≠ a) (hus : ∀ up ∈ (s.merge r a).2.2, t.Has up) :
    (s.merge r a).1.type = .top ∨ t.Has (.unite (s.merge r a).1.sources.toList) := by
  rw [merge_of_ne hne] at hus ⊢
  by_cases htop : s.type.join r a.type = .top
  · exact .inl htop
  · refine .inr (hus _ ?_)
    rw [if_neg htop]
    exact List.mem_singleton.2 rfl

/-- A merge absorbs the slot that arrived. -/
theorem absorbs_merge (hr : r.NoArrays) (hus : ∀ up ∈ (s.merge r a).2.2, t.Has up) :
    (s.merge r a).1.Absorbs r t a := by
  by_cases hne : s = a
  · rw [hne, merge_self]
    exact .refl a
  · have hsame := same_of_merge hne hus
    rw [merge_of_ne hne] at hsame ⊢
    exact ⟨ValueType.absorbs_join hr .., fun x hx => OrderedSet.mem_union.2 (.inr hx), .inr hsame⟩

/-- A slot goes on absorbing when other ones arrive. -/
theorem Absorbs.merge (hr : r.NoArrays) (h : s.Absorbs r t a) {b : Slot}
    (hus : ∀ up ∈ (s.merge r b).2.2, t.Has up) : (s.merge r b).1.Absorbs r t a := by
  by_cases hne : s = b
  · rwa [← hne, merge_self]
  · have hsame := same_of_merge hne hus
    rw [merge_of_ne hne] at hsame ⊢
    exact ⟨h.type.join hr _, fun x hx => OrderedSet.mem_union.2 (.inl (h.sources x hx)), .inr hsame⟩

/-- To merge a slot that is absorbed changes nothing. -/
theorem Absorbs.merge_eq (h : s.Absorbs r t a) :
    ∃ us, s.merge r a = (s, false, us) ∧ ∀ up ∈ us, t.Has up := by
  by_cases hne : s = a
  · rw [hne, merge_self]
    exact ⟨[], rfl, nofun⟩
  · have htype := ValueType.absorbs_iff.1 h.type
    have hsources : s.sources.union a.sources = s.sources :=
      OrderedSet.ext_mem fun x => by rw [OrderedSet.mem_union, or_iff_left_of_imp (h.sources x)]
    rw [merge_of_ne hne, htype, hsources]
    refine ⟨if s.type = .top then [] else [.unite s.sources.toList],
      by simp only [ne_eq, not_true, or_false, decide_false], ?_⟩
    rcases h.same.resolve_left hne with htop | hsame
    · simp [htop]
    · split_ifs
      · exact nofun
      · exact fun up hup => List.mem_singleton.1 hup ▸ hsame

end Slot

/-! ## Frames -/

namespace Frame

variable {f g h : Frame}

/-- A frame absorbs another one. -/
structure Absorbs (r : Registry) (t : FactTable) (f g : Frame) : Prop where
  locals : List.Forall₂ (Slot.Absorbs r t) f.locals g.locals
  stack : List.Forall₂ (Slot.Absorbs r t) f.stack g.stack

theorem Absorbs.refl (f : Frame) : f.Absorbs r t f :=
  ⟨List.forall₂_same.2 fun s _ => .refl s, List.forall₂_same.2 fun s _ => .refl s⟩

theorem Absorbs.mono (h : f.Absorbs r t g) (hfacts : ∀ up, t.Has up → u.Has up) :
    f.Absorbs r u g :=
  ⟨h.locals.imp fun _ _ hs => hs.mono hfacts, h.stack.imp fun _ _ hs => hs.mono hfacts⟩

theorem absorbs_mergeSlots (hr : r.NoArrays) : ∀ {ss as : List Slot}, ss.length = as.length →
    (∀ up ∈ (mergeSlots r ss as).2.2, t.Has up) →
    List.Forall₂ (Slot.Absorbs r t) (mergeSlots r ss as).1 as
  | [], [], _, _ => .nil
  | s :: ss, a :: as, hlength, hus => by
    have ⟨hs, hss⟩ := List.forall_mem_append.1 hus
    exact .cons (Slot.absorbs_merge hr hs) (absorbs_mergeSlots hr (by simpa using hlength) hss)

theorem Absorbs.mergeSlots (hr : r.NoArrays) {ss as bs : List Slot}
    (h : List.Forall₂ (Slot.Absorbs r t) ss as)
    (hus : ∀ up ∈ (Frame.mergeSlots r ss bs).2.2, t.Has up) :
    List.Forall₂ (Slot.Absorbs r t) (Frame.mergeSlots r ss bs).1 as := by
  induction h generalizing bs with
  | nil => cases bs <;> exact .nil
  | @cons s a ss as hs hss ih =>
    cases bs with
    | nil => exact .cons hs hss
    | cons b bs =>
      have ⟨hb, hbs⟩ := List.forall_mem_append.1 hus
      exact .cons (hs.merge hr hb) (ih hbs)

theorem Absorbs.mergeSlots_eq {ss as : List Slot} (h : List.Forall₂ (Slot.Absorbs r t) ss as) :
    ∃ us, Frame.mergeSlots r ss as = (ss, false, us) ∧ ∀ up ∈ us, t.Has up := by
  induction h with
  | nil => exact ⟨[], rfl, nofun⟩
  | cons hs _ ih =>
    obtain ⟨us, hmerge, hus⟩ := hs.merge_eq
    obtain ⟨us', hmerge', hus'⟩ := ih
    refine ⟨us ++ us', by simp [Frame.mergeSlots, hmerge, hmerge'], ?_⟩
    exact List.forall_mem_append.2 ⟨hus, hus'⟩

/-- What a merge that succeeds gives. -/
theorem merge_eq_ok {merged : Frame} {changed : Bool} {us : List FactUpdate} :
    f.merge r g = .ok (merged, changed, us) ↔
      f.stack.length = g.stack.length ∧ f.locals.length = g.locals.length ∧
      merged = ⟨(mergeSlots r f.locals g.locals).1, (mergeSlots r f.stack g.stack).1⟩ ∧
      changed = ((mergeSlots r f.locals g.locals).2.1 || (mergeSlots r f.stack g.stack).2.1) ∧
      us = (mergeSlots r f.locals g.locals).2.2 ++ (mergeSlots r f.stack g.stack).2.2 := by
  unfold merge
  split_ifs with hstack hlocals <;> simp_all [eq_comm]

/-- A merge absorbs the frame that arrived. -/
theorem absorbs_merge (hr : r.NoArrays) {merged : Frame} {changed : Bool} {us : List FactUpdate}
    (h : f.merge r g = .ok (merged, changed, us)) (hus : ∀ up ∈ us, t.Has up) :
    merged.Absorbs r t g := by
  obtain ⟨hstack, hlocals, rfl, -, rfl⟩ := merge_eq_ok.1 h
  have ⟨hl, hs⟩ := List.forall_mem_append.1 hus
  exact ⟨absorbs_mergeSlots hr hlocals hl, absorbs_mergeSlots hr hstack hs⟩

/-- A frame goes on absorbing when other ones arrive. -/
theorem Absorbs.merge (hr : r.NoArrays) (h : f.Absorbs r t g) {b merged : Frame} {changed : Bool}
    {us : List FactUpdate} (hmerge : f.merge r b = .ok (merged, changed, us))
    (hus : ∀ up ∈ us, t.Has up) : merged.Absorbs r t g := by
  obtain ⟨-, -, rfl, -, rfl⟩ := merge_eq_ok.1 hmerge
  have ⟨hl, hs⟩ := List.forall_mem_append.1 hus
  exact ⟨Absorbs.mergeSlots hr h.locals hl, Absorbs.mergeSlots hr h.stack hs⟩

/-- To merge a frame that is absorbed changes nothing. -/
theorem Absorbs.merge_eq (h : f.Absorbs r t g) :
    ∃ us, f.merge r g = .ok (f, false, us) ∧ ∀ up ∈ us, t.Has up := by
  obtain ⟨us, hl, hus⟩ := Absorbs.mergeSlots_eq h.locals
  obtain ⟨us', hs, hus'⟩ := Absorbs.mergeSlots_eq h.stack
  refine ⟨us ++ us', merge_eq_ok.2 ⟨h.stack.length_eq, h.locals.length_eq, ?_⟩,
    List.forall_mem_append.2 ⟨hus, hus'⟩⟩
  simp [hl, hs]

/-! ## What went into a frame -/

/-- Merges made a frame of another one; the table has what they learnt. -/
inductive Became (r : Registry) (t : FactTable) (f : Frame) : Frame → Prop
  | refl : Became r t f f
  | merge {g a merged : Frame} {changed : Bool} {us : List FactUpdate} (hg : Became r t f g)
      (hmerge : g.merge r a = .ok (merged, changed, us)) (hus : ∀ up ∈ us, t.Has up) :
      Became r t f merged

theorem Became.trans (hfg : f.Became r t g) (hgh : g.Became r t h) : f.Became r t h := by
  induction hgh with
  | refl => exact hfg
  | merge _ hmerge hus ih => exact ih.merge hmerge hus

theorem Became.mono (hfg : f.Became r t g) (hfacts : ∀ up, t.Has up → u.Has up) :
    f.Became r u g := by
  induction hfg with
  | refl => exact .refl
  | merge _ hmerge hus ih => exact ih.merge hmerge fun up hup => hfacts up (hus up hup)

theorem Became.within (hfg : f.Became r t g) : f.Within g := by
  induction hfg with
  | refl => exact .refl f
  | merge _ hmerge _ ih => exact ih.trans (merge_above hmerge).1

theorem Became.absorbs (hr : r.NoArrays) (hgh : g.Became r t h) (hg : g.Absorbs r t f) :
    h.Absorbs r t f := by
  induction hgh with
  | refl => exact hg
  | merge _ hmerge hus ih => exact ih.merge hr hmerge hus

/-- A frame arrived, as the first one or merged into an earlier one, and merges
    made another one of what was there then. -/
def WentInto (r : Registry) (t : FactTable) (f g : Frame) : Prop :=
  ∃ there, there.Became r t g ∧ (there = f ∨
    ∃ (old : Frame) (changed : Bool) (us : List FactUpdate),
      old.merge r f = .ok (there, changed, us) ∧ ∀ up ∈ us, t.Has up)

namespace WentInto

theorem refl (f : Frame) : f.WentInto r t f := ⟨f, .refl, .inl rfl⟩

theorem became (hfg : f.WentInto r t g) (hgh : g.Became r t h) : f.WentInto r t h := by
  obtain ⟨there, hthere, hf⟩ := hfg
  exact ⟨there, hthere.trans hgh, hf⟩

theorem mono (hfg : f.WentInto r t g) (hfacts : ∀ up, t.Has up → u.Has up) :
    f.WentInto r u g := by
  obtain ⟨there, hthere, hf⟩ := hfg
  refine ⟨there, hthere.mono hfacts, hf.imp_right ?_⟩
  rintro ⟨old, changed, us, hmerge, hus⟩
  exact ⟨old, changed, us, hmerge, fun up hup => hfacts up (hus up hup)⟩

theorem within (hfg : f.WentInto r t g) : f.Within g := by
  obtain ⟨there, hthere, rfl | ⟨old, changed, us, hmerge, -⟩⟩ := hfg
  · exact hthere.within
  · exact (merge_above hmerge).2.1.trans hthere.within

theorem absorbed (hr : r.NoArrays) (hfg : f.WentInto r t g) : g.Absorbs r t f := by
  obtain ⟨there, hthere, rfl | ⟨old, changed, us, hmerge, hus⟩⟩ := hfg
  · exact hthere.absorbs hr (.refl there)
  · exact hthere.absorbs hr (absorbs_merge hr hmerge hus)

end WentInto

end Frame

end ConstRestore
