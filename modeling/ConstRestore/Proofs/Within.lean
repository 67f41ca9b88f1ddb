/-
  Frames ordered by what they account for.

  * `Slot.Within` says that one slot accounts for the values of another: it has
    all their sources, and is unusable or takes as many words;
  * `Frame.Within` says so of the slots of two frames, one by one;
  * `Frame.Above` says that a merge accounts for both frames, and that it
    changes the first one unless it reports no change.
-/
import ConstRestore.Dataflow.Frame
import ConstRestore.Proofs.Result
import Mathlib

namespace ConstRestore

namespace OrderedSet

variable {α : Type} [Ord α] [Std.TransOrd α]

theorem nodup_toList (s : OrderedSet α) : s.toList.Nodup := by
  refine s.ascending.imp fun {a b} h e => ?_
  subst e
  simp [Std.ReflCmp.compare_self] at h

/-- A set with all members of another one is that set if it has as many. -/
theorem eq_of_subset_of_size {s t : OrderedSet α} (h : ∀ x ∈ s, x ∈ t) (hsize : t.size = s.size) :
    t = s := by
  have hperm : s.toList.Perm t.toList :=
    (s.nodup_toList.subperm h).perm_of_length_le (Nat.le_of_eq hsize)
  exact ext_mem fun x => hperm.symm.mem_iff

end OrderedSet

/-! ## Slots -/

theorem ValueType.size_of_isIntLike {t : ValueType} (h : t.isIntLike) : t ≠ .top ∧ t.size = 1 := by
  cases t <;> simp [isIntLike, size] at h ⊢

theorem ValueType.isIntLike_joinIntLike (s t : ValueType) : (joinIntLike s t).isIntLike := by
  unfold joinIntLike
  split <;> rfl

/-- A join is unusable unless it takes as many words as both types. -/
theorem ValueType.join_eq_top_or (r : Registry) (s t : ValueType) :
    join r s t = .top ∨
      s ≠ .top ∧ t ≠ .top ∧ s.size = (join r s t).size ∧ t.size = (join r s t).size := by
  unfold join
  split_ifs with h hi
  · subst h
    rcases eq_or_ne s .top with h | h
    · exact .inl h
    · exact .inr ⟨h, h, rfl, rfl⟩
  · split
    · exact .inl rfl
    · exact .inl rfl
    · exact .inr ⟨by simp, by simp, rfl, rfl⟩
    · exact .inr ⟨by simp, by simp, rfl, rfl⟩
    · exact .inr ⟨by simp, by simp, rfl, rfl⟩
    · obtain ⟨hs, ht⟩ := Bool.and_eq_true_iff.1 hi
      have hjoin := size_of_isIntLike (isIntLike_joinIntLike s t)
      have hs := size_of_isIntLike hs
      have ht := size_of_isIntLike ht
      exact .inr ⟨hs.1, ht.1, hs.2.trans hjoin.2.symm, ht.2.trans hjoin.2.symm⟩
  · split
    · exact .inl rfl
    · exact .inl rfl
    · exact .inr ⟨by simp, by simp, rfl, rfl⟩
    · exact .inr ⟨by simp, by simp, rfl, rfl⟩
    · exact .inr ⟨by simp, by simp, rfl, rfl⟩
    · exact .inl rfl

namespace Slot

/-- A slot accounts for another one. -/
structure Within (s t : Slot) : Prop where
  sources : ∀ x ∈ s.sources, x ∈ t.sources
  type : t.type = .top ∨ s.type ≠ .top ∧ s.size = t.size

namespace Within

variable {s t u : Slot}

theorem refl (s : Slot) : s.Within s := by
  refine ⟨fun _ h => h, ?_⟩
  by_cases h : s.type = .top
  · exact .inl h
  · exact .inr ⟨h, rfl⟩

theorem trans (h : s.Within t) (h' : t.Within u) : s.Within u := by
  refine ⟨fun x hx => h'.sources x (h.sources x hx), ?_⟩
  rcases h'.type with hu | ⟨ht, hu⟩
  · exact .inl hu
  · rcases h.type with htop | ⟨hs, hst⟩
    · exact absurd htop ht
    · exact .inr ⟨hs, hst.trans hu⟩

/-- A usable slot accounts for usable ones only. -/
theorem usable (h : s.Within t) (ht : t.type ≠ .top) : s.type ≠ .top ∧ s.size = t.size :=
  h.type.resolve_left ht

theorem top_left (t : Slot) (ht : t.type = .top) : Slot.top.Within t :=
  ⟨fun _ hx => absurd hx List.not_mem_nil, .inl ht⟩

/-- Usable slots of one size with the same sources. -/
theorem of_sources {sources : OrderedSet Source} {a b : ValueType} (ha : a ≠ .top)
    (h : a.size = b.size) : (Slot.mk a sources).Within ⟨b, sources⟩ :=
  ⟨fun _ hx => hx, .inr ⟨ha, h⟩⟩

end Within

theorem merge_above (r : Registry) (s t : Slot) :
    s.Within (s.merge r t).1 ∧ t.Within (s.merge r t).1 ∧
      ((s.merge r t).2.1 = false → (s.merge r t).1 = s) := by
  unfold merge
  split_ifs with h
  · exact ⟨.refl s, h ▸ .refl s, fun _ => rfl⟩
  · have hjoin := s.type.join_eq_top_or r t.type
    refine ⟨⟨fun x hx => OrderedSet.mem_union.2 (.inl hx), ?_⟩,
      ⟨fun x hx => OrderedSet.mem_union.2 (.inr hx), ?_⟩, ?_⟩
    · exact hjoin.imp_right fun ⟨hs, _, hsize, _⟩ => ⟨hs, hsize⟩
    · exact hjoin.imp_right fun ⟨_, ht, _, hsize⟩ => ⟨ht, hsize⟩
    · intro hchanged
      simp only [decide_eq_false_iff_not, not_or, not_not] at hchanged
      have hsources : s.sources.union t.sources = s.sources :=
        OrderedSet.eq_of_subset_of_size (fun x hx => OrderedSet.mem_union.2 (.inl hx)) hchanged.2
      rw [hsources, hchanged.1]

end Slot

/-! ## Frames -/

namespace Frame

/-- A frame accounts for another one. -/
structure Within (f g : Frame) : Prop where
  locals : List.Forall₂ Slot.Within f.locals g.locals
  stack : List.Forall₂ Slot.Within f.stack g.stack

theorem Within.refl (f : Frame) : f.Within f :=
  ⟨List.forall₂_same.2 fun s _ => .refl s, List.forall₂_same.2 fun s _ => .refl s⟩

theorem forall₂_trans {ss ts us : List Slot} (h : List.Forall₂ Slot.Within ss ts)
    (h' : List.Forall₂ Slot.Within ts us) : List.Forall₂ Slot.Within ss us := by
  induction h generalizing us with
  | nil => exact h'
  | cons hs _ ih =>
    cases h' with
    | cons ht h' => exact .cons (hs.trans ht) (ih h')

theorem Within.trans {f g h : Frame} (hfg : f.Within g) (hgh : g.Within h) : f.Within h :=
  ⟨forall₂_trans hfg.locals hgh.locals, forall₂_trans hfg.stack hgh.stack⟩

theorem mergeSlots_above (r : Registry) : ∀ ss ts : List Slot, ss.length = ts.length →
    List.Forall₂ Slot.Within ss (mergeSlots r ss ts).1 ∧
      List.Forall₂ Slot.Within ts (mergeSlots r ss ts).1 ∧
      ((mergeSlots r ss ts).2.1 = false → (mergeSlots r ss ts).1 = ss)
  | [], [], _ => ⟨.nil, .nil, fun _ => rfl⟩
  | s :: ss, t :: ts, h => by
    obtain ⟨hs, ht, hsame⟩ := s.merge_above r t
    obtain ⟨hss, hts, hsames⟩ := mergeSlots_above r ss ts (by simpa using h)
    refine ⟨.cons hs hss, .cons ht hts, ?_⟩
    intro hchanged
    have hchanged := Bool.or_eq_false_iff.1 hchanged
    exact List.cons_eq_cons.2 ⟨hsame hchanged.1, hsames hchanged.2⟩

/-- A merge accounts for both frames. -/
theorem merge_above {r : Registry} {f g merged : Frame} {changed : Bool} {us : List FactUpdate}
    (h : f.merge r g = .ok (merged, changed, us)) :
    f.Within merged ∧ g.Within merged ∧ (changed = false → merged = f) := by
  unfold merge at h
  split_ifs at h with hstack hlocals
  rw [not_not] at hstack hlocals
  obtain ⟨hl, hl', hlsame⟩ := mergeSlots_above r f.locals g.locals hlocals
  obtain ⟨hs, hs', hssame⟩ := mergeSlots_above r f.stack g.stack hstack
  simp only [Except.ok.injEq, Prod.mk.injEq] at h
  obtain ⟨rfl, rfl, -⟩ := h
  refine ⟨⟨hl, hs⟩, ⟨hl', hs'⟩, ?_⟩
  intro hchanged
  have hchanged := Bool.or_eq_false_iff.1 hchanged
  simp only [hlsame hchanged.1, hssame hchanged.2]

end Frame

end ConstRestore
