/-
  Finite sets as ascending lists.

  The order is part of the type, so two sets with the same members are equal
  (`ext_mem`).  `mem_insert` and `mem_union` say what the members are.
-/
namespace ConstRestore

/-- A finite set, listed in ascending order without repetition. -/
structure OrderedSet (α : Type) [Ord α] where
  toList : List α
  ascending : toList.Pairwise fun a b => compare a b = .lt

namespace OrderedSet

variable {α : Type} [Ord α]

instance [DecidableEq α] : DecidableEq (OrderedSet α) := fun s t =>
  decidable_of_iff (s.toList = t.toList) <| by
    obtain ⟨_, _⟩ := s
    obtain ⟨_, _⟩ := t
    simp

instance : Membership α (OrderedSet α) := ⟨fun s a => a ∈ s.toList⟩

instance [DecidableEq α] (a : α) (s : OrderedSet α) : Decidable (a ∈ s) :=
  inferInstanceAs (Decidable (a ∈ s.toList))

def empty : OrderedSet α := ⟨[], .nil⟩

instance : EmptyCollection (OrderedSet α) := ⟨empty⟩

instance : Inhabited (OrderedSet α) := ⟨empty⟩

def singleton (a : α) : OrderedSet α := ⟨[a], List.pairwise_singleton ..⟩

def size (s : OrderedSet α) : Nat := s.toList.length

def isEmpty (s : OrderedSet α) : Bool := s.toList.isEmpty

/-- Inserts into an ascending list. -/
def insertList (a : α) : List α → List α
  | [] => [a]
  | b :: bs =>
    match compare a b with
    | .lt => a :: b :: bs
    | .eq => b :: bs
    | .gt => b :: insertList a bs

theorem mem_insertList [Std.LawfulEqOrd α] {a x : α} {l : List α} :
    x ∈ insertList a l ↔ x = a ∨ x ∈ l := by
  induction l with
  | nil => simp [insertList]
  | cons b bs ih =>
    unfold insertList
    split
    · simp
    · next h => simp [Std.LawfulEqOrd.eq_of_compare h]
    · simp only [List.mem_cons, ih]
      exact ⟨fun h => h.elim (fun e => .inr (.inl e)) (·.imp_right .inr),
        fun h => h.elim (fun e => .inr (.inl e)) (·.imp_right .inr)⟩

theorem pairwise_insertList [Std.LawfulEqOrd α] [Std.TransOrd α] {a : α} {l : List α}
    (hl : l.Pairwise fun x y => compare x y = .lt) :
    (insertList a l).Pairwise fun x y => compare x y = .lt := by
  induction l with
  | nil => exact List.pairwise_singleton ..
  | cons b bs ih =>
    have ⟨hb, hbs⟩ := List.pairwise_cons.1 hl
    unfold insertList
    split
    · next h =>
      refine List.pairwise_cons.2 ⟨fun y hy => ?_, hl⟩
      rcases List.mem_cons.1 hy with rfl | hy
      · exact h
      · exact Std.TransCmp.lt_trans h (hb y hy)
    · exact hl
    · next h =>
      refine List.pairwise_cons.2 ⟨fun y hy => ?_, ih hbs⟩
      rcases mem_insertList.1 hy with rfl | hy
      · exact Std.OrientedCmp.gt_iff_lt.1 h
      · exact hb y hy

section Lawful

variable [Std.LawfulEqOrd α] [Std.TransOrd α]

def insert (s : OrderedSet α) (a : α) : OrderedSet α :=
  ⟨insertList a s.toList, pairwise_insertList s.ascending⟩

def union (s t : OrderedSet α) : OrderedSet α := t.toList.foldl insert s

def ofList (l : List α) : OrderedSet α := l.foldl insert ∅

theorem mem_insert {s : OrderedSet α} {a x : α} : x ∈ s.insert a ↔ x = a ∨ x ∈ s :=
  mem_insertList

theorem mem_foldl_insert {l : List α} {s : OrderedSet α} {x : α} :
    x ∈ l.foldl insert s ↔ x ∈ s ∨ x ∈ l := by
  induction l generalizing s with
  | nil => simp
  | cons a l ih =>
    simp only [List.foldl_cons, ih, mem_insert, List.mem_cons]
    exact ⟨fun h => h.elim (fun h => h.elim (fun e => .inr (.inl e)) .inl) fun h => .inr (.inr h),
      fun h => h.elim (fun h => .inl (.inr h)) fun h => h.elim (fun e => .inl (.inl e)) .inr⟩

theorem mem_union {s t : OrderedSet α} {x : α} : x ∈ s.union t ↔ x ∈ s ∨ x ∈ t :=
  mem_foldl_insert

end Lawful

theorem eq_of_ascending [Std.TransOrd α] {l m : List α}
    (hl : l.Pairwise fun x y => compare x y = .lt) (hm : m.Pairwise fun x y => compare x y = .lt)
    (h : ∀ x, x ∈ l ↔ x ∈ m) : l = m := by
  have irrefl : ∀ x : α, compare x x ≠ .lt := fun x hx => by
    simp [Std.ReflCmp.compare_self] at hx
  induction l generalizing m with
  | nil =>
    match m with
    | [] => rfl
    | y :: m => exact absurd ((h y).2 List.mem_cons_self) List.not_mem_nil
  | cons x l ih =>
    match m with
    | [] => exact absurd ((h x).1 List.mem_cons_self) List.not_mem_nil
    | y :: m =>
      have ⟨hx, hl'⟩ := List.pairwise_cons.1 hl
      have ⟨hy, hm'⟩ := List.pairwise_cons.1 hm
      have hxy : x = y := by
        rcases List.mem_cons.1 ((h x).1 List.mem_cons_self) with e | hxm
        · exact e
        · rcases List.mem_cons.1 ((h y).2 List.mem_cons_self) with e | hyl
          · exact e.symm
          · exact absurd (Std.TransCmp.lt_trans (hy x hxm) (hx y hyl)) (irrefl y)
      subst hxy
      congr 1
      refine ih hl' hm' fun z => ⟨fun hz => ?_, fun hz => ?_⟩
      · rcases List.mem_cons.1 ((h z).1 (List.mem_cons_of_mem _ hz)) with rfl | hzm
        · exact absurd (hx z hz) (irrefl z)
        · exact hzm
      · rcases List.mem_cons.1 ((h z).2 (List.mem_cons_of_mem _ hz)) with rfl | hzl
        · exact absurd (hy z hz) (irrefl z)
        · exact hzl

/-- Sets are equal when they have the same members. -/
theorem ext_mem [Std.TransOrd α] {s t : OrderedSet α} (h : ∀ x, x ∈ s ↔ x ∈ t) : s = t := by
  obtain ⟨l, hl⟩ := s
  obtain ⟨m, hm⟩ := t
  have : l = m := eq_of_ascending hl hm h
  simp [this]

end OrderedSet

end ConstRestore
